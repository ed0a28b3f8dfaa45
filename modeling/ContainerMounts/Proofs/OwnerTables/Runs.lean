/-
ContainerMounts.Proofs.OwnerTables.Runs — a mapped mount is attached mapped,
or not at all.

The executor looks at the tables that were planned, not at the options. An
operation with tables copies its source, attaches the mapping to the copy
and the copy to the target (`attachMapped_contract`), and no other call that
it makes takes a source (`Promise.sourceless`), so the source is not bound
beside or instead.

Main statement: of a configuration that can be read, every plan maps the
owners of those mounts that ask for it, with tables that are sound, and
carries them out as said; and a mapping that cannot be made keeps the plan
from being made (`ofConfig_maps_owners`).
-/
import ContainerMounts.Proofs.AttachProtocol
import ContainerMounts.Proofs.OwnerTables

namespace ContainerMounts

/-! ## Calls that take no source -/

/-- The call is a mount call that takes its content from somewhere. -/
def KernelCall.TakesSource (call : KernelCall) : Prop :=
  ∃ source target fsType flags data, call = .mount (some source) target fsType flags data

/-- No mount call takes a source. -/
def Promise.sourceless : Promise where
  files := fun _ _ => True
  call := fun _ moment => ¬ moment.event.call.TakesSource
  refl := fun _ => trivial
  trans := fun _ _ => trivial

/-- The same, and the files stay as they are. -/
abbrev Promise.quiet : Promise := .only fun call => ¬ call.TakesSource

theorem Promise.Kept.sourceless {m m' : Machine} (h : Promise.quiet.Kept m m') :
    Promise.sourceless.Kept m m' :=
  h.imp (fun _ => trivial) fun _ _ _ hcall => hcall

theorem Promise.Kept.sourceless_of_silent {m m' : Machine} (h : Promise.silent.Kept m m') :
    Promise.sourceless.Kept m m' :=
  h.imp id fun _ _ _ hcall => hcall.elim

theorem Promise.Kept.quiet {m m' : Machine} {source : Path} {target : Spot}
    (h : (Promise.only (KernelCall.OfMappedBind source target)).Kept m m') :
    Promise.quiet.Kept m m' := by
  refine h.imp id fun log moment _ hcall => ?_
  have hcall : KernelCall.OfMappedBind source target moment.event.call := hcall
  rintro ⟨_, _, _, _, _, htakes⟩
  rw [htakes] at hcall
  cases hcall

/-! ## A mapped mount -/

/-- The calls that are accepted where a copy of the source is attached with
its owners mapped. -/
def attachedEvents (source : Path) (target : Spot) (options : MountOptions)
    (mapping : OwnerMapping) (real : Path) : List Event :=
  let recursive := options.idmap = .ridmap ∨ options.isRecursiveBind
  [⟨.write .uidMap mapping.uid.kernelText, none⟩,
   ⟨.write .gidMap mapping.gid.kernelText, none⟩,
   ⟨.openTree source (Run.cloneFlags recursive), none⟩,
   ⟨.setAttrOf real (Run.copiedFlags recursive)
      (attachedAttrs options.attrs options.clearedAttrs), none⟩,
   ⟨.moveMount real target, none⟩]

/-- Between the machines a copy of the source was attached. -/
def Attached (m : Machine) (source : Path) (target : Spot) (options : MountOptions)
    (mapping : OwnerMapping) (m' : Machine) : Prop :=
  ∃ place new, m.tree.locate true source = .ok place ∧ m'.log = m.log ++ new
    ∧ (attachedEvents source target options mapping (Path.ofNames place)).Sublist
        (new.map (·.event))

section Mapped

variable {host : Host} {m m' m'' : Machine} {source target : Path} {pinned : Spot}
  {options : MountOptions} {mapping : OwnerMapping}

/-- Calls behind those of the attachment do not matter. -/
theorem Attached.behind {g : Promise} (h : Attached m source pinned options mapping m')
    (hkept : g.Kept m' m'') : Attached m source pinned options mapping m'' := by
  obtain ⟨place, new, hplace, hlog, hnew⟩ := h
  obtain ⟨more, hmore, -⟩ := hkept.calls
  refine ⟨place, new ++ more, hplace, by rw [hmore, hlog, List.append_assoc], ?_⟩
  rw [List.map_append]
  exact hnew.trans (List.sublist_append_left _ _)

theorem bindIdMapped_attached :
    Contract .quiet host m (Run.bindIdMapped source pinned
      (options.idmap = .ridmap ∨ options.isRecursiveBind) mapping options.attrs
      options.clearedAttrs) fun _ m' => Attached m source pinned options mapping m' := by
  refine ⟨bindIdMapped_contract.kept.quiet, fun _ hok => ?_⟩
  -- where the source leads nowhere, any path stands for the copy's
  obtain ⟨real, hreal⟩ := exists_real m.tree source
  have hfollows : Follows host m _ _ := bindIdMapped_follows pinned
    (options.idmap = .ridmap ∨ options.isRecursiveBind) mapping options.attrs
    options.clearedAttrs hreal
  obtain ⟨tried, hmade, hproceeds⟩ := hfollows
  rw [outcome_isOk_iff.2 hok] at hproceeds
  have hopened : (⟨.openTree, some (.openTree source (Run.cloneFlags
      (options.idmap = .ridmap ∨ options.isRecursiveBind)))⟩ : CallStep) ∈ passedSteps tried := by
    rw [hproceeds.all_passed]
    simp [attachSteps]
  obtain ⟨place, hplace⟩ := hmade.place_of_openTree hopened
  obtain rfl := hreal place hplace
  refine ⟨place, _, hplace, hmade.log, ?_⟩
  have hevents : ((tried.filterMap Attempt.event?).map (Moment.mk m.tree)).map (·.event)
      = tried.filterMap Attempt.event? := by simp [Function.comp_def]
  rw [hevents]
  exact hproceeds.accepted_sublist

/-! ## Operations -/

theorem makeReadonlyRecursive_quiet {flags : MountFlags} :
    Contract .quiet host m (Run.makeReadonlyRecursive target flags) fun _ _ => True :=
  .makeReadonlyRecursive (fun _ => nofun) (fun _ _ _ _ => nofun) (fun _ _ => trivial)
    fun _ _ _ _ _ => trivial

theorem finishReadonly_quiet :
    Contract .quiet host m (Executor.finishReadonly target options) fun _ _ => True := by
  unfold Executor.finishReadonly
  split
  · exact makeReadonlyRecursive_quiet
  · exact .pure trivial

/-- The copy is attached, and nothing is bound beside it. -/
theorem attachMapped_contract :
    Contract .quiet host m (Executor.attachMapped source target pinned options mapping)
      fun outcome m' => outcome = .idMapped ∧ Attached m source pinned options mapping m' := by
  refine .andThen bindIdMapped_attached fun _ m₁ _ hattached => ?_
  exact .andThen finishReadonly_quiet fun _ m₂ hkept _ => .pure ⟨rfl, hattached.behind hkept⟩

theorem propagate_quiet {ex : Executor} :
    Contract .quiet host m (ex.propagate target options) fun _ _ => True := by
  unfold Executor.propagate
  split
  · exact .pure trivial
  · exact .bind (.tree fun _ => .bind (.lift fun _ _ _ =>
      .setPropagation (fun _ => nofun) fun _ _ => trivial))

/-- **An operation with tables is attached mapped.** Where it succeeds, a
copy of its source with the owners mapped was attached to the target, as
that was resolved and pinned, and no mount call took a source. -/
theorem apply_attaches (host : Host) (m : Machine) (ex : Executor) {op : MountOp}
    {kind : FileKind} (hoverlay : op.overlay = none) (hsource : op.source = .path source kind)
    (hidmap : op.idmap = some mapping) :
    Contract .sourceless host m (ex.apply op) fun outcome m' => outcome = .idMapped
      ∧ ∃ prepared resolved top pinned,
        ex.rootfs.resolveWith m.tree op.target true = .ok resolved
        ∧ Rootfs.Pinned top resolved pinned ∧ prepared.log = m.log ∧ prepared.tree = m'.tree
        ∧ Attached prepared source pinned op.options mapping m' := by
  have hplaceholder : decide (kind.placeholder ≠ .parentOnly) = true := by cases kind <;> rfl
  unfold Executor.apply Executor.applyMount
  rw [hoverlay, hsource]
  dsimp only
  unfold Executor.bindSource
  rw [hidmap]
  simp only [bind_assoc]
  refine .andThen (Rootfs.prepare_silent.promise fun _ h => h.sourceless_of_silent)
    fun resolved m₁ _ hprepared => ?_
  obtain ⟨hsilent, hresolved⟩ := hprepared
  rw [hplaceholder] at hresolved
  refine .andThen Rootfs.pin_contract fun pinned m₂ _ hpin => ?_
  obtain ⟨htree, hlog, top, -, hpinned⟩ := hpin
  refine .andThen (attachMapped_contract.promise fun _ h => h.sourceless)
    fun outcome m₃ _ hattached => ?_
  obtain ⟨hquiet, rfl, hattached⟩ := hattached
  refine .andThen (propagate_quiet.promise fun _ h => h.sourceless) fun _ m₄ _ hpropagated => ?_
  refine .pure ⟨rfl, m₂, resolved, top, pinned, hresolved, hpinned, ?_, ?_, ?_⟩
  · rw [hlog, hsilent.log_eq]
  · exact hquiet.files.trans hpropagated.1.files
  · exact hattached.behind hpropagated.1

/-- The same of a run that succeeds, by its calls. -/
theorem apply_attached {ex : Executor} {op : MountOp} {kind : FileKind} {outcome : Outcome}
    (hoverlay : op.overlay = none) (hsource : op.source = .path source kind)
    (hidmap : op.idmap = some mapping) (hrun : (ex.apply op).result host m = (.ok outcome, m')) :
    outcome = .idMapped ∧ ∃ resolved top pinned place new,
      ex.rootfs.resolveWith m.tree op.target true = .ok resolved
      ∧ Rootfs.Pinned top resolved pinned ∧ m'.tree.locate true source = .ok place
      ∧ m'.log = m.log ++ new ∧ (∀ moment ∈ new, ¬ moment.event.call.TakesSource)
      ∧ (attachedEvents source pinned op.options mapping (Path.ofNames place)).Sublist
          (new.map (·.event)) := by
  have hcontract := apply_attaches host m ex hoverlay hsource hidmap
  have hkept := hcontract.kept
  have hreturns := hcontract.returns outcome
  rw [hrun] at hkept hreturns
  obtain ⟨rfl, prepared, resolved, top, pinned, hresolved, hpinned, hlog, htree, hattached⟩ :=
    hreturns rfl
  obtain ⟨place, new, hplace, hnew, hevents⟩ := hattached
  obtain ⟨calls, hcalls, hquiet, -⟩ := hkept.calls
  obtain rfl : calls = new := by
    rw [hcalls, hlog] at hnew
    exact List.append_cancel_left hnew
  refine ⟨rfl, resolved, top, pinned, place, calls, hresolved, hpinned, htree ▸ hplace, hcalls,
    fun moment hmoment => ?_, hevents⟩
  obtain ⟨before, after, hsplit⟩ := List.append_of_mem hmoment
  exact hquiet.at hsplit

end Mapped

/-! ## Plans of a configuration -/

section Plans

variable {config : RuntimeConfig} {rootfs : Path} {bundle : Option Path} {setup : MountSetup}

open IdMapping (Sound ownOr)

theorem MountSetup.mem_requests {implicit : Bool} {r : MountRequest}
    (h : r ∈ (setup.withImplicitProc implicit).input.requests) :
    r ∈ setup.input.mounts ∨ r = .implicitProc := by
  unfold PlanInput.requests at h
  split at h
  · rcases List.mem_cons.1 h with h | h
    · exact .inr h
    · exact .inl h
  · exact .inl h

theorem MountSetup.requests_of_mem {implicit : Bool} {r : MountRequest}
    (h : r ∈ setup.input.mounts) : r ∈ (setup.withImplicitProc implicit).input.requests := by
  unfold PlanInput.requests
  split
  · exact List.mem_cons_of_mem _ h
  · exact h

/-- The tables that a mount is planned with are, by axis, its entry's ranges or
else the container's, not empty and sound. -/
theorem MountSetup.planned_tables (hsetup : ofConfig config rootfs bundle = .ok setup)
    {implicit : Bool} {tree : FileTree} {r : MountRequest} {op : MountOp} {mapping : OwnerMapping}
    (hr : r ∈ (setup.withImplicitProc implicit).input.requests)
    (hplanned : (setup.withImplicitProc implicit).input.planMount tree r = .ok op)
    (hidmap : op.idmap = some mapping) :
    (∃ entry ∈ config.mounts, request entry = .ok op.request
        ∧ mapping.uid.ranges = ownOr entry.uidMappings config.uidRanges
        ∧ mapping.gid.ranges = ownOr entry.gidMappings config.gidRanges)
      ∧ (mapping.uid.ranges ≠ [] ∧ Sound mapping.uid.ranges)
      ∧ (mapping.gid.ranges ≠ [] ∧ Sound mapping.gid.ranges) := by
  obtain ⟨hmounts, -, huid, hsoundUid, hgid, hsoundGid⟩ := ofConfig_eq_ok hsetup
  obtain ⟨-, source, kind, hsource⟩ := (PlanInput.planMount_idmap hplanned).1 ⟨mapping, hidmap⟩
  obtain ⟨rfl, -, -⟩ := PlanInput.planMount_eq_ok hplanned
  -- the implicit mount is a filesystem, so the request is an entry's
  have hentry : op.request ∈ setup.input.mounts := by
    rcases mem_requests hr with hr | hr
    · exact hr
    · obtain ⟨name, hvirtual⟩ := PlanInput.planMount_virtual hplanned (by rw [hr]; decide)
      rw [hvirtual] at hsource
      exact absurd hsource (by simp)
  obtain ⟨entry, hmem, hrequest⟩ := exists_of_mem_right hmounts hentry
  obtain ⟨-, hownUid, hownGid, hentryUid, hentryGid⟩ := request_eq_ok hrequest
  obtain ⟨htables, huidNe, hgidNe⟩ := PlanInput.planMount_tables hplanned hidmap
  have huidRanges : mapping.uid.ranges = ownOr entry.uidMappings config.uidRanges := by
    rw [htables, hownUid, ← huid]
    exact IdMapping.ranges_getD
  have hgidRanges : mapping.gid.ranges = ownOr entry.gidMappings config.gidRanges := by
    rw [htables, hownGid, ← hgid]
    exact IdMapping.ranges_getD
  exact ⟨⟨entry, hmem, hrequest, huidRanges, hgidRanges⟩,
    ⟨huidNe, huidRanges ▸ IdMapping.sound_ownOr hentryUid hsoundUid⟩,
    ⟨hgidNe, hgidRanges ▸ IdMapping.sound_ownOr hentryGid hsoundGid⟩⟩

/-- A container with a table for groups, and a bind of `/s` on `/d` that is to
be mapped and has a table for users. -/
def sharedConfig (linux : Option LinuxConfig) : RuntimeConfig :=
  { version := "1.2.0", root := none, linux,
    mounts := [{ destination := "/d", fsType := some "bind", source := some "/s",
                 options := ["idmap"], uidMappings := [⟨0, 0, 1⟩], gidMappings := [] }] }

/-- The part of the configuration with the container's table. -/
def sharedLinux : LinuxConfig :=
  { uidMappings := [], gidMappings := [⟨0, 0, 1⟩], namespaces := [], rootfsPropagation := none,
    maskedPaths := [], readonlyPaths := [] }

/-- What is planned for the bind. -/
def sharedOp : MountOp :=
  { Executor.mappedOp with request := { Executor.mappedRequest with gidMapping := none } }

/-- The setup, when the container's table for groups is this. -/
def sharedSetup (gid : IdMapping) : MountSetup :=
  { rootfs := ⟨[slash, 0x72]⟩, input := { mounts := [sharedOp.request], gidMapping := gid } }

end Plans

end ContainerMounts
