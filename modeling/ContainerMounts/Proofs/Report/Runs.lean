/-
ContainerMounts.Proofs.Report.Runs — the report of a run tells what was done.

Each function of the executor has a contract that says how its calls back the
outcome that it returns. A run puts them on record one operation after the
other (`Carried`), behind the preparation of the root and in front of the call
that makes the root read-only.

Where control groups are mirrored in memory, entries of the host's directory
become paths below the target, which they do under names that a directory can
hold. So these contracts promise that files stay under such names
(`Promise.naming`), which every file that is made is.

Main statement: `execute_reported`.
-/
import ContainerMounts.Proofs.CgroupGuard.Runs
import ContainerMounts.Proofs.ControllerTree
import ContainerMounts.Proofs.CreatedFiles
import ContainerMounts.Proofs.EnclosingMount
import ContainerMounts.Proofs.Report

namespace ContainerMounts

open FileTree
open MountFlags (Apart callModes)

/-- Files stay under names that a directory can hold. -/
def Promise.naming : Promise where
  files := fun a b => a.WellNamed → b.WellNamed
  call := fun _ _ => True
  refl := fun _ h => h
  trans := fun hab hbc h => hbc (hab h)

theorem Promise.naming_of_only {p : KernelCall → Prop} {m m' : Machine}
    (h : (Promise.only p).Kept m m') : Promise.naming.Kept m m' :=
  h.imp (fun heq hnamed => heq ▸ hnamed) fun _ _ _ _ => trivial

/-- An operation finishes after what it did. -/
theorem Adds.finished {host : Host} {m m₁ m' : Machine} {o : MountOptions} {p : Path}
    {outcome : Outcome} (h : Adds m (Backs host o p outcome) m₁) (h' : Adds m₁ (Finishing o) m') :
    Adds m (Backs host o p outcome) m' :=
  h.append h' fun _ _ => Backs.finished

/-- What was done before, whatever it was, may not matter. -/
theorem Adds.after {g : Promise} {m m₁ m' : Machine} {p q : List Moment → Prop}
    (h : g.Kept m m₁) (h' : Adds m₁ p m') (hpq : ∀ xs ys, p ys → q (xs ++ ys)) : Adds m q m' := by
  obtain ⟨before, hbefore⟩ := h.log_grows
  have htried : Adds m (fun _ => True) m₁ := ⟨before, hbefore.symm, trivial⟩
  exact htried.append h' fun xs ys _ => hpq xs ys

/-- Nothing is put on record. -/
theorem Adds.nothing {m m' : Machine} {p : List Moment → Prop} (hlog : m'.log = m.log) (h : p []) :
    Adds m p m' :=
  ⟨[], by rw [hlog, List.append_nil], h⟩

namespace Telling

variable {ex : Executor} {host : Host} {m m' : Machine} {o : MountOptions} {p : Path}
  {flags : MountFlags} {data : String} {namespaces : Namespaces} {op : MountOp}
  {r : ResolvedPath} {call : KernelCall}

/-! ## Finishing -/

theorem adds_finishing (h : Accepted m call m') (hcall : Finishes o call) :
    Adds m (Finishing o) m' :=
  .of_accepted h (List.forall_mem_singleton.2 hcall)

theorem remountBind :
    Contract .naming host m (Run.remountBind p flags) fun _ m' => Adds m (Finishing o) m' :=
  .remountBind (fun _ => trivial) fun _ h => adds_finishing h finishes_remountBindCall

theorem makeReadonlyRecursive :
    Contract .naming host m (Run.makeReadonlyRecursive p flags)
      fun _ m' => Adds m (Finishing o) m' :=
  (Guarding.makeReadonlyRecursive fun _ _ => trivial).mono fun _ _ _ h =>
    h.mono fun _ => MadeReadonly.finishing

theorem finishReadonly :
    Contract .naming host m (Executor.finishReadonly p o) fun _ m' => Adds m (Finishing o) m' := by
  unfold Executor.finishReadonly
  split
  · exact makeReadonlyRecursive
  · exact .pure (.nothing rfl (List.forall_mem_nil _))

theorem propagate {target : Path} :
    Contract .naming host m (ex.propagate target o) fun _ m' => Adds m (Finishing o) m' := by
  unfold Executor.propagate
  split
  · exact .pure (.nothing rfl (List.forall_mem_nil _))
  · rename_i propagation hpropagation
    refine .bind (.tree fun _ => .bind (.lift fun r _ _ => ?_))
    exact .setPropagation (fun _ => trivial) fun _ h =>
      adds_finishing h (.propagation _ hpropagation)

/-! ## Files -/

/-- A preparation resolves the target and makes no call. -/
theorem prepare {target : Path} {placeholder : Placeholder} :
    Contract .naming host m (ex.rootfs.prepare target placeholder) fun r m' =>
      ex.rootfs.resolveWith m.tree target (placeholder ≠ .parentOnly) = .ok r ∧ m'.log = m.log :=
  Rootfs.prepare_edits fun _ _ _ _ hbare hmake hnamed => make_wellNamed hnamed hbare hmake

theorem materializeSymlink {target text : Path} :
    Contract .naming host m (ex.materializeSymlink target text) fun outcome m' =>
      outcome = .symlinked ∧ m'.log = m.log := by
  unfold Executor.materializeSymlink
  refine .andThen prepare fun r m₁ _ hr => ?_
  obtain ⟨-, hlog⟩ := hr
  refine .bind (.change? (fun _ m₂ hedit _ hlog' => ⟨fun hnamed => ?_, fun _ => ?_⟩)
    fun fault _ _ => ?_)
  · exact make_wellNamed hnamed (fun _ => rfl) (make_of_makeLink hedit)
  · exact .pure ⟨rfl, hlog'.trans hlog⟩
  · refine .bind (.tree fun _ => ?_)
    split
    · exact .pure ⟨rfl, hlog⟩
    · exact .throw

/-! ## Binds -/

theorem bindIdMapped {source : Path} {pinned : Spot} {recursive : Bool} {mapping : OwnerMapping}
    {set clear : MountAttrs} :
    Contract .naming host m (Run.bindIdMapped source pinned recursive mapping set clear)
      fun _ m' => Adds m (Once KernelCall.isAttach) m' := by
  refine (bindIdMapped_contract.promise fun _ => Promise.naming_of_only).mono fun _ m' _ h => ?_
  obtain ⟨-, m₁, m₂, m₃, real, hhelper, hclone, hset, hattach⟩ := h
  obtain ⟨-, written, hwritten, hwrites⟩ := Promise.kept_only_iff.1 hhelper
  have hwrites : Never KernelCall.isAttach written := fun moment hmoment => by
    obtain ⟨file, text, hcall⟩ := (hwrites moment hmoment).2
    rw [hcall]
    rfl
  have hcopied : Adds m₁ (Never KernelCall.isAttach) m₃ := .pair hclone.log hset.log
    (List.forall_mem_cons.2 ⟨rfl, List.forall_mem_singleton.2 rfl⟩)
  have hattached : Adds m₃ (Once KernelCall.isAttach) m' :=
    .of_accepted hattach (once_singleton rfl rfl)
  have hbehind : Adds m₁ (Once KernelCall.isAttach) m' :=
    hcopied.append hattached fun _ _ hcopied hattached => hattached.behind hcopied
  exact .append ⟨written, hwritten, hwrites⟩ hbehind fun _ _ hwrites hbehind =>
    hbehind.behind hwrites

theorem attachMapped {source : Path} {pinned : Spot} {mapping : OwnerMapping} :
    Contract .naming host m (Executor.attachMapped source p pinned o mapping)
      fun outcome m' => Adds m (Backs host o p outcome) m' := by
  unfold Executor.attachMapped
  refine .andThen bindIdMapped fun _ m₁ _ hattached => ?_
  refine .andThen finishReadonly fun _ m₂ _ hfinished => .pure ?_
  exact (hattached.mono fun _ => .idMapped).finished hfinished

theorem once_newMount (h : Accepted m call m') (hcall : call.isNewMount = true) :
    Adds m (Once KernelCall.isNewMount) m' :=
  .of_accepted h (once_singleton hcall rfl)

theorem attachPlain {source : Path} {pinned : Spot} :
    Contract .naming host m (Executor.attachPlain source p pinned o)
      fun outcome m' => Adds m (Backs host o p outcome) m' := by
  have hfinish : ∀ m₁, Adds m (Backs host o p .mounted) m₁ → Contract .naming host m₁ (do
      Executor.finishReadonly p o
      return Outcome.mounted) fun outcome m' => Adds m (Backs host o p outcome) m' :=
    fun m₁ hmounted => .andThen finishReadonly fun _ _ _ hfinished =>
      .pure (hmounted.finished hfinished)
  unfold Executor.attachPlain
  refine .bind (.bindMount (fun _ => trivial) fun m₁ hbound _ => ?_)
  have hmounted : Adds m (Backs host o p .mounted) m₁ :=
    (once_newMount hbound (KernelCall.isNewMount_bind _)).mono fun _ => .mounted (.inl rfl)
  split
  · refine .bind (.inheritRelaxed fun table _ _ => ?_)
    exact .andThen remountBind fun _ m₂ _ hremounted => hfinish m₂ (hmounted.finished hremounted)
  · exact hfinish m₁ hmounted

/-- The target of the operation was resolved, and what was done on it backs the
outcome. -/
def Done (ex : Executor) (host : Host) (m : Machine) (op : MountOp) (outcome : Outcome)
    (m' : Machine) : Prop :=
  ∃ r, ex.rootfs.resolve m.tree op.target = .ok r
    ∧ Adds m (Backs host op.options r.hostPath outcome) m'

theorem bindSource {source : Path} {kind : FileKind} :
    Contract .naming host m (ex.bindSource op source kind) (Done ex host m op) := by
  have hkind : kind.placeholder ≠ .parentOnly := by cases kind <;> decide
  unfold Executor.bindSource
  refine .andThen prepare fun r m₁ _ hr => ?_
  obtain ⟨hr, hlog⟩ := hr
  rw [decide_eq_true hkind] at hr
  refine .andThen Rootfs.pin_contract fun pinned m₂ _ hpinned => ?_
  have hlog : m₂.log = m.log := hpinned.2.1.trans hlog
  split
  · exact attachMapped.mono fun _ _ _ h => ⟨r, hr, .of_log_eq hlog h⟩
  · exact attachPlain.mono fun _ _ _ h => ⟨r, hr, .of_log_eq hlog h⟩

/-! ## Overlays -/

theorem protectPath :
    Contract .naming host m (ex.protectPath r) fun outcome m' =>
      Adds m (Backs host o r.hostPath outcome) m' := by
  unfold Executor.protectPath
  refine .andThen Rootfs.pin_contract fun pinned m₁ _ hpinned => ?_
  refine .bind (.bindMount (fun _ => trivial) fun m₂ hbound _ => ?_)
  refine .bind (.inherit fun table _ _ => ?_)
  have hmounted : Adds m₁ (Backs host o r.hostPath .readonly) m₂ :=
    (once_newMount hbound (KernelCall.isNewMount_bind _)).mono fun _ => .mounted (.inr (.inl rfl))
  refine .andThen (remountBind (o := o)) fun _ m₃ _ hremounted => .pure ?_
  exact .of_log_eq hpinned.2.1 (hmounted.finished hremounted)

theorem hidePath :
    Contract .naming host m (ex.hidePath r) fun outcome m' =>
      Adds m (Backs host o r.hostPath outcome) m' := by
  unfold Executor.hidePath
  refine .andThen Rootfs.pin_contract fun pinned m₁ _ hpinned => ?_
  obtain ⟨-, hlog, -⟩ := hpinned
  refine .bind (.inherit fun table _ _ => .bind (.ask fun node _ _ => ?_))
  have hmasked {calls : List Moment} (h : Once KernelCall.isNewMount calls) :
      Backs host o r.hostPath .masked calls := .mounted (.inr (.inr rfl)) h
  dsimp only
  split
  · refine .bind (.mountFilesystem (fun _ => trivial) fun m₂ hmounted _ => .pure ?_)
    have hfresh : Apart (table.inherit r.hostPath MountFlags.readonly) callModes :=
      MountTable.inherit_apart_of (by decide) (by decide)
    exact .of_log_eq hlog ((once_newMount hmounted (KernelCall.isNewMount_of_apart hfresh)).mono
      fun _ => hmasked)
  · refine .bind (.read fun _ => .bind (.bindMount (fun _ => trivial) fun m₂ hbound _ => ?_))
    refine .bind (.inherit fun _ _ _ => ?_)
    refine .andThen (remountBind (o := o)) fun _ m₃ _ hremounted => .pure ?_
    have hmounted := (once_newMount hbound (KernelCall.isNewMount_bind _)).mono fun _ => hmasked
    exact .of_log_eq hlog (hmounted.finished hremounted)

/-! ## proc and sysfs -/

/-- A new sysfs is the one mount, if it is granted. -/
theorem tryFreshSysfs (hfresh : Apart flags callModes) :
    Contract .naming host m (Run.tryFreshSysfs namespaces p flags data) fun fresh m' =>
      fresh = true → Adds m (Once KernelCall.isNewMount) m' := by
  unfold Run.tryFreshSysfs
  split
  · refine .bind (.mountFilesystem? (fun _ => trivial) fun fault m₁ hissued _ => ?_)
    cases fault with
    | none =>
        exact .pure fun _ =>
          once_newMount hissued.accepted (KernelCall.isNewMount_of_apart hfresh)
    | some fault =>
        dsimp only [Option.map_some]
        split
        · exact .pure nofun
        · exact .throw
  · exact .pure nofun

theorem bindHostSysfs :
    Contract .naming host m (Run.bindHostSysfs p flags) fun _ m' =>
      Adds m (Backs host o p .hostSysfs) m' := by
  unfold Run.bindHostSysfs
  refine .bind (.read fun _ => Guarding.hostBound (fun _ _ => trivial) fun m₁ hbound => ?_)
  have hbacked : Adds m (Backs host o p .hostSysfs) m₁ := hbound.mono fun _ => HostBound.hostSysfs
  have hfinish (q : Path) (flags : MountFlags) : Contract .naming host m₁
      (Run.makeReadonlyRecursive q flags) fun _ m' => Adds m (Backs host o p .hostSysfs) m' :=
    makeReadonlyRecursive.mono fun _ _ _ hfinished => hbacked.finished hfinished
  split
  · exact hfinish _ _
  · refine .bind (.isMountPoint fun table _ _ => ?_)
    split
    · exact hfinish _ _
    · exact .pure hbacked

theorem mountSysfs (hfresh : Apart flags callModes) :
    Contract .naming host m (Run.mountSysfs namespaces p flags data) fun ofHost m' =>
      Adds m (Backs host o p (if ofHost then .hostSysfs else .mounted)) m' := by
  unfold Run.mountSysfs
  refine .andThen (tryFreshSysfs hfresh) fun fresh m₁ hm₁ htried => ?_
  split
  · rename_i hgranted
    exact .pure ((htried hgranted).mono fun _ => .mounted (.inl rfl))
  · exact .andThen bindHostSysfs fun _ m₂ _ hbound =>
      .pure (.after hm₁ hbound fun _ _ h => h.behind (by simp))

/-! ## Control groups -/

theorem bindHostCgroup :
    Contract .naming host m (Run.bindHostCgroup p flags) fun _ m' =>
      Adds m (Backs host o p (.cgroup .bindHost)) m' := by
  unfold Run.bindHostCgroup
  refine .bind (.read fun _ => Guarding.hostBound (fun _ _ => trivial) fun m₁ hbound => ?_)
  have hbacked : Adds m (Backs host o p (.cgroup .bindHost)) m₁ :=
    hbound.mono fun _ => HostBound.cgroup
  exact makeReadonlyRecursive.mono fun _ _ _ hfinished => hbacked.finished hfinished

theorem tryFreshCgroup (hfresh : Apart flags callModes) :
    Contract .naming host m (Run.tryFreshCgroup p flags data) fun fresh m' =>
      fresh = true → Adds m (Backs host o p (.cgroup .fresh)) m' := by
  unfold Run.tryFreshCgroup
  refine .bind (.mountFilesystem? (fun _ => trivial) fun fault m₁ hissued _ => ?_)
  cases fault with
  | none =>
      refine .bind (.inherit fun table _ _ => .andThen (remountBind (o := o))
        fun _ m₂ _ hremounted => .pure fun _ => ?_)
      have hmounted : Adds m (Backs host o p (.cgroup .fresh)) m₁ :=
        .of_accepted hissued.accepted
          (.cgroup [] (.fresh _ _) (KernelCall.isNewMount_of_apart hfresh) rfl (by simp))
      exact hmounted.finished hremounted
  | some fault =>
      dsimp only [Option.map_some]
      split
      · exact .pure nofun
      · exact .throw

/-- What is done for a controller is done below the target. -/
theorem addController {root target : Path} {name : Name} {node : Node} (hname : PlainName name) :
    Contract .naming host m (Run.addController root target flags name node) fun _ m' =>
      Adds m (fun calls => ∀ moment ∈ calls, MountsNothing o target moment) m' := by
  cases node with
  | symlink text =>
      refine .bind (.change? (fun tree m₁ hedit _ hlog => ⟨fun hnamed => ?_, fun _ => ?_⟩)
        fun fault _ _ => .throw)
      · exact make_wellNamed hnamed (fun _ => rfl) (make_of_makeLink hedit)
      · exact .pure (.nothing hlog (List.forall_mem_nil _))
  | dir mode entries =>
      refine .bindController (fun tree hedit hnamed =>
        make_wellNamed hnamed (fun _ => rfl) (make_of_makeDir hedit).2) fun m₁ _ hlog => ?_
      refine .bind (.bindMount (fun _ => trivial) fun m₂ hbound _ =>
        .bind (.inherit fun table _ _ => ?_))
      refine (remountBind (o := o)).mono fun _ m' _ hremounted => .of_log_eq hlog ?_
      have hbelow : Adds m₁ (fun calls => ∀ moment ∈ calls, MountsNothing o target moment) m₂ := by
        refine .of_accepted hbound (List.forall_mem_singleton.2 ?_)
        intro source dest fsType flags' data' hevent
        have hdest : Spot.at (target.join ⟨name⟩) = dest := by
          injection hevent with hcall
          injection hcall
        exact .inl ⟨name, hname, hdest.symm⟩
      exact hbelow.append hremounted fun _ _ hx hy => List.forall_mem_append.2
        ⟨hx, fun moment hmoment => (hy moment hmoment).mountsNothing⟩
  | _ => exact .pure (.nothing rfl (List.forall_mem_nil _))

theorem addControllers {root target : Path} {entries : List (Name × Node)}
    (hplain : ∀ e ∈ entries, PlainName e.1) :
    Contract .naming host m (Run.addControllers root target flags entries) fun _ m' =>
      Adds m (fun calls => ∀ moment ∈ calls, MountsNothing o target moment) m' := by
  induction entries generalizing m with
  | nil => exact .pure (.nothing rfl (List.forall_mem_nil _))
  | cons e rest ih =>
      obtain ⟨hfirst, hrest⟩ := List.forall_mem_cons.1 hplain
      refine .andThen (addController (o := o) hfirst) fun _ m₁ _ hone => ?_
      exact (ih hrest).mono fun _ _ _ hothers => hone.append hothers fun _ _ hx hy =>
        List.forall_mem_append.2 ⟨hx, hy⟩

theorem mountSynthetic (hnamed : m.tree.WellNamed) (hfresh : Apart flags callModes) :
    Contract .naming host m (Run.mountSynthetic p flags) fun _ m' =>
      Adds m (Backs host o p (.cgroup .synthetic)) m' := by
  unfold Run.mountSynthetic
  refine .bind (.mountFilesystem (fun _ => trivial) fun m₁ hmemory hm₁ => ?_)
  refine .bind (.read fun _ => .bind (.ask fun entries hlisted _ => ?_))
  have hplain := list_plain (hm₁.files hnamed) hlisted
  refine .andThen (addControllers (o := o) hplain) fun _ m₂ _ hcontrollers => ?_
  refine .remount (fun _ => trivial) fun m' hlast => ?_
  have hend : Adds m₂ (Finishing o) m' :=
    adds_finishing hlast (.remount (MountFlags.includes_or_right (by decide)))
  have hmounted : Adds m (Backs host o p (.cgroup .synthetic)) m₂ := by
    obtain ⟨below, hlog, hbelow⟩ := hcontrollers
    refine ⟨_ :: below, by rw [hlog, hmemory.log, List.append_assoc, List.singleton_append], ?_⟩
    exact .cgroup [] (.synthetic _ _) (KernelCall.isNewMount_of_apart hfresh.without) rfl hbelow
  exact hmounted.finished hend

theorem mountCgroup (hnamed : m.tree.WellNamed) (hflags : Apart flags callModes) :
    Contract .naming host m (Run.mountCgroup namespaces p flags data) fun strategy m' =>
      Adds m (Backs host o p (.cgroup strategy)) m' := by
  have hfresh : Apart (flags ||| MountFlags.readonly) callModes := hflags.or (by decide)
  unfold Run.mountCgroup
  refine .bind (.table fun table _ _ => .bind (.read fun _ => ?_))
  dsimp only
  split
  · refine .andThen (tryFreshCgroup (o := o) hfresh) fun fresh m₁ hm₁ htried => ?_
    split
    · rename_i hgranted
      exact .pure (htried hgranted)
    · exact .andThen (bindHostCgroup (o := o)) fun _ m₂ _ hbound =>
        .pure (.after hm₁ hbound fun _ _ h => h.behind (by simp))
  · exact .andThen bindHostCgroup fun _ _ _ hbound => .pure hbound
  · exact .andThen (mountSynthetic hnamed hfresh) fun _ _ _ hmounted => .pure hmounted

/-! ## Operations -/

theorem mountPlain {name : String} :
    Contract .naming host m (ex.mountPlain op name r) fun outcome m' =>
      Adds m (Backs host op.options p outcome) m' := by
  unfold Executor.mountPlain
  refine .andThen Rootfs.pin_contract fun pinned m₁ _ hpinned => ?_
  refine .bind (.mountFilesystem (fun _ => trivial) fun m₂ hmounted _ => .pure ?_)
  have hfresh : Apart op.options.flags callModes := op.options.flags_apart_of (by decide)
  have honce := once_newMount hmounted (KernelCall.isNewMount_of_apart hfresh)
  exact .of_log_eq hpinned.2.1 (honce.mono fun _ => .mounted (.inl rfl))

theorem mountKind {name : String} (hnamed : m.tree.WellNamed) :
    Contract .naming host m (ex.mountKind op name r) fun outcome m' =>
      Adds m (Backs host op.options r.hostPath outcome) m' := by
  have hfresh : Apart op.options.flags callModes := op.options.flags_apart_of (by decide)
  unfold Executor.mountKind
  cases op.request.kind with
  | proc =>
      refine .bind (.mountFilesystem (fun _ => trivial) fun m₁ hmounted _ => .pure ?_)
      exact (once_newMount hmounted (KernelCall.isNewMount_of_apart hfresh)).mono
        fun _ => .mounted (.inl rfl)
  | sysfs =>
      refine .andThen (mountSysfs (o := op.options) hfresh) fun ofHost m₁ _ hmounted => ?_
      cases ofHost with
      | true => exact .pure hmounted
      | false => exact .pure hmounted
  | cgroup =>
      refine .andThen (mountCgroup (o := op.options) hnamed hfresh) fun _ _ _ hmounted => ?_
      exact .pure hmounted
  | _ => exact mountPlain

theorem mountVirtual {name : String} (hnamed : m.tree.WellNamed) :
    Contract .naming host m (ex.mountVirtual op name) (Done ex host m op) := by
  unfold Executor.mountVirtual
  refine .andThen prepare fun r m₁ hm₁ hr => ?_
  obtain ⟨hr, hlog⟩ := hr
  refine .andThen (mountKind (hm₁.files hnamed)) fun outcome m₂ _ hmounted => ?_
  refine .andThen (finishReadonly (o := op.options)) fun _ m₃ _ hfinished => .pure ⟨r, hr, ?_⟩
  exact .of_log_eq hlog (hmounted.finished hfinished)

theorem overlayPath {kind : OverlayKind} :
    Contract .naming host m (ex.overlayPath op.target kind) fun outcome m' =>
      Adds m (Told ex host m.tree op outcome) m' := by
  unfold Executor.overlayPath
  refine .bind (.tree fun _ => .bind (.lift fun r hr _ => ?_))
  split
  · exact .pure (.nothing rfl (.nothing (.inl rfl)))
  · cases kind with
    | readonly => exact protectPath.mono fun _ _ _ h => h.mono fun _ => .done hr
    | masked => exact hidePath.mono fun _ _ _ h => h.mono fun _ => .done hr

theorem applyMount (hnamed : m.tree.WellNamed) :
    Contract .naming host m (ex.applyMount op) fun outcome m' =>
      Adds m (Told ex host m.tree op outcome) m' := by
  have hpropagate : ∀ (outcome : Outcome) (m₁ : Machine), Done ex host m op outcome m₁ →
      Contract .naming host m₁ (do
        ex.propagate op.target op.options
        return outcome) fun outcome m' => Adds m (Told ex host m.tree op outcome) m' := by
    intro outcome m₁ hdone
    obtain ⟨r, hr, hbacked⟩ := hdone
    refine .andThen propagate fun _ m₂ _ hpropagated => .pure ?_
    exact (hbacked.finished hpropagated).mono fun _ => .done hr
  unfold Executor.applyMount
  split
  · refine materializeSymlink.mono fun outcome m' _ h => ?_
    obtain ⟨houtcome, hlog⟩ := h
    exact .nothing hlog (.nothing (.inr houtcome))
  · exact .andThen bindSource fun outcome m₁ _ h => hpropagate outcome m₁ h
  · exact .andThen (mountVirtual hnamed) fun outcome m₁ _ h => hpropagate outcome m₁ h
  · exact .throw

theorem apply (hnamed : m.tree.WellNamed) :
    Contract .naming host m (ex.apply op) fun outcome m' =>
      Adds m (Told ex host m.tree op outcome) m' := by
  unfold Executor.apply
  split
  · exact overlayPath
  · exact applyMount hnamed

end Telling

/-! ## A whole run -/

namespace Executor

variable {ex : Executor} {host : Host} {plan : MountPlan} {m m' : Machine}

/-- The operations one after the other: each has an entry under its target, and
what it put on record is what the entry's outcome tells. -/
inductive Carried (ex : Executor) (host : Host) :
    Machine → List MountOp → List ReportEntry → Machine → Prop where
  | nil (m : Machine) : Carried ex host m [] [] m
  | cons {m m₁ m' : Machine} {op : MountOp} {rest : List MountOp} {outcome : Outcome}
      {entries : List ReportEntry} (ran : (ex.apply op).result host m = (.ok outcome, m₁))
      (told : Adds m (Told ex host m.tree op outcome) m₁)
      (hrest : Carried ex host m₁ rest entries m') :
      Carried ex host m (op :: rest) (⟨op.target, outcome⟩ :: entries) m'

/-- The calls ahead of the operations: the root is bound to itself unless a
mount is on it, and gets its propagation. -/
def opening (ex : Executor) (table : MountTable) : List Event :=
  (if table.isMountPoint ex.rootfs.path then [] else [⟨selfBind ex.rootfs.path, none⟩])
    ++ [⟨.mount none (.at ex.rootfs.path) none ex.propagation.flags none, none⟩]

/-- The entry and the call behind the operations: there are none, or the root,
and only the root, is made read-only. -/
inductive Closing (ex : Executor) : List ReportEntry → List Event → Prop where
  | writable (h : ex.readonlyRootfs = false) : Closing ex [] []
  | readonly {flags : MountFlags} (h : ex.readonlyRootfs = true)
      (hremount : flags.includes MountFlags.bindRemount = true)
      (hreadonly : flags.includes MountFlags.readonly = true)
      (halone : flags.meets MountFlags.recursive = false) :
      Closing ex [⟨Path.root, .readonly⟩]
        [⟨.mount none (.at ex.rootfs.path) none flags none, none⟩]

/-- The report tells what was done: ahead of the operations, by each of them in
the order of the plan, and behind them. -/
inductive Reported (ex : Executor) (host : Host) (plan : MountPlan) (m : Machine) :
    ExecutionReport → Machine → Prop where
  | run {table : MountTable} {m₁ m₂ m' : Machine} {entries last : List ReportEntry}
      {calls : List Event} (table_read : host.table m.events = .ok table)
      (opened : m₁.events = m.events ++ ex.opening table)
      (carried : Carried ex host m₁ plan.ops entries m₂)
      (targets : entries.map (·.target) = plan.ops.map (·.target))
      (closed : m'.events = m₂.events ++ calls) (closing : Closing ex last calls) :
      Reported ex host plan m ⟨entries ++ last⟩ m'

theorem Carried.targets {ops : List MountOp} {entries : List ReportEntry}
    (h : Carried ex host m ops entries m') : entries.map (·.target) = ops.map (·.target) := by
  induction h with
  | nil m => rfl
  | cons ran told hrest ih => simp [ih]

/-- Names stay proper from one operation to the next, so each of them tells. -/
theorem applyAll_carried {ops : List MountOp} (hnamed : m.tree.WellNamed) :
    Contract .naming host m (ex.applyAll ops)
      fun entries m' => Carried ex host m ops entries m' := by
  induction ops generalizing m with
  | nil => exact .pure (.nil m)
  | cons op rest ih =>
      unfold applyAll
      refine .andThen (Telling.apply hnamed).ran fun outcome m₁ hm₁ ⟨hran, htold⟩ => ?_
      exact .andThen (ih (hm₁.files hnamed)) fun _ _ _ hrest => .pure (.cons hran htold hrest)

theorem prepareRootfs_opening :
    Contract .naming host m ex.prepareRootfs fun _ m' =>
      ∃ table, host.table m.events = .ok table ∧ m'.events = m.events ++ ex.opening table := by
  unfold prepareRootfs
  refine .bind (.isMountPoint fun table htable _ => ?_)
  dsimp only
  cases hmounted : table.isMountPoint ex.rootfs.path with
  | true =>
      refine .setPropagation (fun _ => trivial) fun m' hset => ⟨table, htable, ?_⟩
      simp [opening, hmounted, hset.events]
  | false =>
      refine .bind (.bindMount (fun _ => trivial) fun m₁ hbound _ => ?_)
      refine .setPropagation (fun _ => trivial) fun m' hset => ⟨table, htable, ?_⟩
      simp [opening, hmounted, hset.events, hbound.events, selfBind]

theorem finishRootfs_closing :
    Contract .naming host m ex.finishRootfs fun last m' =>
      ∃ calls, m'.events = m.events ++ calls ∧ Closing ex last calls := by
  unfold finishRootfs
  split
  · rename_i hreadonly
    refine .bind (.inherit fun table _ _ => .bind (.remountBind (fun _ => trivial) fun m₁ hset _ =>
      .pure ⟨_, hset.events, .readonly hreadonly ?_ ?_ ?_⟩))
    · exact MountFlags.includes_or_bind_or_remount
    · have hinherited : (table.inherit ex.rootfs.path MountFlags.readonly).includes
          MountFlags.readonly = true := MountFlags.includes_or_right (by decide)
      exact MountFlags.includes_or_left (MountFlags.includes_or_left hinherited)
    · have hinherited : Apart (table.inherit ex.rootfs.path MountFlags.readonly)
          MountFlags.recursive := MountTable.inherit_apart_of (by decide) (by decide)
      exact ((hinherited.or (by decide)).or (by decide)).not_meets (by decide)
  · rename_i hwritable
    exact .pure ⟨[], by simp, .writable (by simpa using hwritable)⟩

/-- **The report of a run tells what was done.** When a run succeeds, it has
prepared the root, carried the operations out in their order, and finished with
the root. Each operation has one entry, and the calls that it put on record are
what the outcome in the entry tells: which are the new mounts, where they came
from, and that there are none where the operation was skipped or is a symlink. -/
theorem execute_reported {report : ExecutionReport} (hnamed : m.tree.WellNamed)
    (h : ((ex.execute plan).result host m).1 = .ok report) :
    Reported ex host plan m report ((ex.execute plan).result host m).2 := by
  suffices hall : Contract .naming host m (ex.execute plan) (Reported ex host plan m) from
    hall.returns report h
  refine .andThen prepareRootfs_opening fun _ m₁ hm₁ ⟨table, htable, hopened⟩ => ?_
  refine .andThen (applyAll_carried (hm₁.files hnamed)) fun entries m₂ _ hcarried => ?_
  refine .andThen finishRootfs_closing fun last m' _ ⟨calls, hclosed, hclosing⟩ => .pure ?_
  exact .run htable hopened hcarried hcarried.targets hclosed hclosing

/-- Control groups in memory, in a root that is made read-only last. -/
theorem execute_reported_group :
    let ex := { Sample.executor with namespaces := { net := true }, readonlyRootfs := true }
    let m : Machine := { tree := Sample.groups }
    let plan : MountPlan := ⟨[groupOp]⟩
    let run := (ex.execute plan).result Sample.groupHost m
    let report : ExecutionReport :=
      ⟨[⟨groupOp.target, .cgroup .synthetic⟩, ⟨Path.root, .readonly⟩]⟩
    m.tree.WellNamed ∧ run.1 = .ok report ∧ Reported ex Sample.groupHost plan m report run.2 := by
  intro ex m plan run report
  have hreport : run.1 = .ok report := by decide +kernel
  exact ⟨Sample.wellNamed_groups, hreport,
    execute_reported Sample.wellNamed_groups hreport⟩

/-- An accepted mount call on the path, other than a remount. -/
def mountsOn (p : Path) : Event → Bool
  | ⟨.mount _ target _ flags _, none⟩ => target = .at p && !flags.meets MountFlags.remount
  | _ => false

/-- Control groups on `/c` that take part in what is mounted on the host. -/
def slaveGroupRequest : MountRequest :=
  { destination := "/c", kind := .cgroup, options := ["rslave"] }

/-- The operation of that request. -/
def slaveGroupOp : MountOp :=
  { request := slaveGroupRequest, target := ⟨[slash, 0x63]⟩, source := .virtual "cgroup2",
    options := { propagation := some ⟨.slave, true⟩ }, depth := 1, phase := .mount }

/-- **What is reported need not be the last mount call on its target.** The options of the
operation ask for a propagation. It is set when the directory in memory is there, by a
mount call that is no remount. -/
theorem execute_propagates_behind :
    let ex := { Sample.executor with namespaces := { net := true } }
    let run := (ex.execute ⟨[slaveGroupOp]⟩).result Sample.groupHost { tree := Sample.groups }
    let target : Path := ⟨[slash, 0x72, slash, 0x63]⟩
    let last : KernelCall :=
      .mount none (.at target) none (MountFlags.slave ||| MountFlags.recursive) none
    MountPlan.build Sample.groups { mounts := [slaveGroupRequest] } = .ok ⟨[slaveGroupOp]⟩
      ∧ run.1 = .ok ⟨[⟨slaveGroupOp.target, .cgroup .synthetic⟩]⟩
      ∧ ex.rootfs.resolve Sample.groups slaveGroupOp.target
        = .ok ⟨ex.rootfs, [[0x63]], some 0⟩
      ∧ ex.rootfs.hostPath [[0x63]] = target
      ∧ (run.2.events.filter (mountsOn target)).getLast? = some ⟨last, none⟩
      ∧ ∀ strategy, ¬ Provides Sample.groupHost target strategy last := by
  intro ex run target last
  have hplan : MountPlan.build Sample.groups { mounts := [slaveGroupRequest] }
      = .ok ⟨[slaveGroupOp]⟩ := MountPlan.build_eq_singleton rfl rfl rfl
  exact ⟨hplan, by decide +kernel, by decide +kernel, rfl, by decide +kernel,
    fun strategy hprovides => hprovides.has_source rfl⟩

end Executor

end ContainerMounts
