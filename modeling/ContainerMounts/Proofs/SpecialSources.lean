/-
ContainerMounts.Proofs.SpecialSources — devices, pipes and sockets are bound one by
one.

A special file has no mounts below it, and what an option list asks of those is asked
of the one mount instead. That is settled in the plan (`MountOptions.Narrowed`): of
the options only the recursive words change, each to the word for one mount, so no
restriction is lost. The executor decides three times whether to recurse, and each
time it looks at the planned options (`MountOptions.SingleMount`), so none of the
calls for such an operation covers more than one mount (`KernelCall.Single`).

The calls follow from the contracts of the operations, and the files from the
preparation of the mount point, behind which no operation changes any.

Main statement: an operation of a plan whose source is a special file is carried out
by calls for one mount, on a mount point that is a file, with the options as they
were declared but for the recursive words; other sources keep the options as they
are (`special_sources_bound_singly`).
-/
import ContainerMounts.Proofs.AttachProtocol
import ContainerMounts.Proofs.CreatedFiles
import ContainerMounts.Proofs.Failures.Runs
import ContainerMounts.Proofs.FlagWords
import ContainerMounts.Proofs.OwnerTables
import ContainerMounts.Proofs.Preparation

namespace ContainerMounts

open MountFlags (Apart)

/-! ## Calls for one mount -/

/-- The call covers one mount: a bind takes no mounts below along, and neither a copy
of a tree nor a change of attributes reaches below its root. -/
def KernelCall.Single : KernelCall → Prop
  | .mount _ _ _ flags _ => Apart flags MountFlags.bind ∨ Apart flags MountFlags.recursive
  | .openTree _ flags | .setAttrAt _ flags _ | .setAttrOf _ flags _ =>
      flags &&& AtFlags.recursive = 0
  | .moveMount .. | .write .. | .unshare _ => True

namespace KernelCall

theorem single_bindMount (source target : Spot) :
    Single (.mount (some source) target none (Contract.bindFlags false) none) :=
  .inr (by decide)

/-- A remount of a bind has the flags of a mount besides. -/
theorem single_remountBind (target : Path) {flags : MountFlags}
    (h : Apart flags MountFlags.recursive) : Single (Contract.remountBindCall target flags) :=
  .inr ((h.or (by decide)).or (by decide))

/-- A change of propagation may go to all mounts below, but it is no bind. -/
theorem single_propagation (target : Path) (propagation : Propagation) :
    Single (.mount none (.at target) none propagation.flags none) := by
  refine .inl ?_
  obtain ⟨mode, recursive⟩ := propagation
  cases mode <;> cases recursive <;> decide

/-- What an id-mapped bind of one mount makes. -/
theorem single_of_mem_attachCalls {source real : Path} {spot : Spot} {mapping : OwnerMapping}
    {set clear : MountAttrs} {call : KernelCall}
    (h : call ∈ attachCalls source spot false mapping set clear real) : call.Single := by
  simp only [attachCalls, List.mem_cons, List.not_mem_nil, or_false] at h
  rcases h with rfl | rfl | rfl | rfl | rfl | rfl
  · trivial
  · trivial
  · trivial
  · show Run.cloneFlags false &&& AtFlags.recursive = 0
    decide
  · show Run.copiedFlags false &&& AtFlags.recursive = 0
    decide
  · trivial

end KernelCall

/-! ## Options -/

namespace MountOptions

variable {o o' : MountOptions} {kind : FileKind}

/-- Nothing is asked of the mounts below. -/
structure SingleMount (o : MountOptions) : Prop where
  bind : o.isRecursiveBind = false
  access : o.isRecursiveReadonly = false
  idmap : o.idmap ≠ .ridmap

/-- The second options ask of one mount what the first ask, be it of one mount or of
all below: it is bound, and the recursive words for access and owners are those for
one mount. -/
structure Narrowed (o o' : MountOptions) : Prop where
  bind : o'.bind = .bind
  access : o'.access = if o.access = .recursiveReadOnly then .readOnly else o.access
  idmap : o'.idmap = if o.idmap = .ridmap then .idmap else o.idmap
  /-- Nothing else is different. -/
  rest : { o' with bind := o.bind, access := o.access, idmap := o.idmap } = o

theorem Narrowed.singleMount (h : Narrowed o o') : o'.SingleMount where
  bind := by rw [isRecursiveBind, h.bind]; rfl
  access := by
    rw [isRecursiveReadonly, h.access]
    split
    · rfl
    · exact beq_false_of_ne ‹_›
  idmap := by
    rw [h.idmap]
    split
    · decide
    · assumption

/-- No restriction is lost and none is added. -/
theorem Narrowed.isReadonly_eq (h : Narrowed o o') : o'.isReadonly = o.isReadonly := by
  rw [isReadonly, isReadonly, h.access]
  split
  · rename_i hrecursive
    rw [hrecursive]
    rfl
  · rfl

theorem Narrowed.idmap_eq_none_iff (h : Narrowed o o') : o'.idmap = .none ↔ o.idmap = .none := by
  rw [h.idmap]
  split
  · rename_i hrecursive
    simp [hrecursive]
  · rfl

theorem narrowed_restrictedTo (h : kind.isSpecial = true) : Narrowed o (o.restrictedTo kind) := by
  rw [restrictedTo, if_pos h]
  refine ⟨rfl, ?_, rfl, rfl⟩
  simp [isRecursiveReadonly]

end MountOptions

/-! ## Operations -/

namespace Executor

variable {host : Host} {m : Machine} {ex : Executor} {source target : Path} {pinned : Spot}
  {options : MountOptions} {mapping : OwnerMapping} {op : MountOp} {kind : FileKind}

theorem bindIdMapped_single {set clear : MountAttrs} :
    Contract (.only KernelCall.Single) host m
      (Run.bindIdMapped source pinned false mapping set clear) fun _ _ => True := by
  obtain ⟨real, hreal⟩ := exists_real m.tree source
  have hfollows : Follows host m _ _ :=
    bindIdMapped_follows pinned false mapping set clear hreal
  obtain ⟨tried, hmade, hproceeds⟩ := hfollows
  refine ⟨Promise.kept_only_iff.2 ⟨hmade.tree, _, hmade.log, fun moment hmoment => ?_⟩,
    fun _ _ => trivial⟩
  obtain ⟨event, hevent, rfl⟩ := List.mem_map.1 hmoment
  have hcall := hproceeds.call_mem hevent
  rw [attachSteps_calls] at hcall
  exact ⟨rfl, KernelCall.single_of_mem_attachCalls hcall⟩

theorem finishReadonly_single {p : Promise} (h : options.SingleMount) :
    Contract p host m (finishReadonly target options) fun _ _ => True := by
  rw [finishReadonly, if_neg (by simp [h.access])]
  exact .pure trivial

theorem attachMapped_single (h : options.SingleMount) :
    Contract (.only KernelCall.Single) host m (attachMapped source target pinned options mapping)
      fun _ _ => True := by
  have hrecursive : decide (options.idmap = .ridmap ∨ options.isRecursiveBind = true) = false := by
    simp [h.idmap, h.bind]
  unfold attachMapped
  dsimp only
  rw [hrecursive]
  refine .andThen bindIdMapped_single fun _ _ _ _ => ?_
  exact .andThen (finishReadonly_single h) fun _ _ _ _ => .pure trivial

theorem attachPlain_single (h : options.SingleMount) :
    Contract (.only KernelCall.Single) host m (attachPlain source target pinned options)
      fun _ _ => True := by
  unfold attachPlain
  rw [h.bind]
  refine .bind (.bindMount (fun _ => KernelCall.single_bindMount (.at source) pinned)
    fun _ _ _ => ?_)
  have hfinish : ∀ m', Contract (.only KernelCall.Single) host m'
      (do finishReadonly target options; return Outcome.mounted) fun _ _ => True := fun m' =>
    .andThen (finishReadonly_single h) fun _ _ _ _ => .pure trivial
  split
  · refine .bind (.inheritRelaxed fun table _ _ => ?_)
    have hapart : Apart (table.inheritRelaxed target options.flags options.relaxed)
        MountFlags.recursive :=
      (MountTable.inherit_apart_of (by decide) (options.flags_apart_of (by decide))).without
    exact .bind (.remountBind (fun _ => KernelCall.single_remountBind target hapart)
      fun m' _ _ => hfinish m')
  · exact hfinish _

theorem propagate_single :
    Contract (.only KernelCall.Single) host m (ex.propagate target options) fun _ _ => True := by
  unfold propagate
  split
  · exact .pure trivial
  · rename_i propagation _
    exact .bind (.tree fun _ => .bind (.lift fun resolved _ _ => .setPropagation
      (fun _ => KernelCall.single_propagation resolved.hostPath propagation) fun _ _ => trivial))

/-- Behind an action without calls the files stay, and the calls are those of what
follows. -/
theorem result_behind_silent {α β : Type} {act : Run α} {f : α → Run β} {p : KernelCall → Prop}
    (hact : Contract .silent host m act fun _ _ => True)
    (hf : ∀ a m', Contract (.only p) host m' (f a) fun _ _ => True) :
    ((act >>= f).result host m).2.tree = (act.result host m).2.tree
      ∧ (∃ new, ((act >>= f).result host m).2.log = m.log ++ new
        ∧ ∀ moment ∈ new, p moment.event.call)
      ∧ (((act >>= f).result host m).1.isOk = true → (act.result host m).1.isOk = true) := by
  have hlog := hact.kept.log_eq
  rw [Run.result_bind]
  cases hresult : act.result host m with
  | mk outcome m' =>
      rw [hresult] at hlog
      cases outcome with
      | error e => exact ⟨rfl, ⟨[], by simpa using hlog, by simp⟩, id⟩
      | ok a =>
          obtain ⟨htree, new, hnew, hcalls⟩ := Promise.kept_only_iff.1 (hf a m').kept
          exact ⟨htree, ⟨new, by rw [hnew, hlog], fun moment h => (hcalls moment h).2⟩,
            fun _ => rfl⟩

/-- A bind of one mount changes the files by preparing its mount point, and makes
calls for one mount. -/
theorem apply_single (ex : Executor) (host : Host) (m : Machine) (hoverlay : op.overlay = none)
    (hsource : op.source = .path source kind) (h : op.options.SingleMount) :
    ((ex.apply op).result host m).2.tree
        = ((ex.rootfs.prepare op.target kind.placeholder).result host m).2.tree
      ∧ (∃ new, ((ex.apply op).result host m).2.log = m.log ++ new
        ∧ ∀ moment ∈ new, moment.event.call.Single)
      ∧ (((ex.apply op).result host m).1.isOk = true →
        ((ex.rootfs.prepare op.target kind.placeholder).result host m).1.isOk = true) := by
  unfold apply applyMount
  rw [hoverlay, hsource]
  dsimp only
  unfold bindSource
  simp only [bind_assoc]
  refine result_behind_silent (Rootfs.prepare_silent.mono fun _ _ _ _ => trivial)
    fun resolved m' => ?_
  refine .andThen (Rootfs.pin_contract.mono fun _ _ _ _ => trivial) fun pinned m₁ _ _ => ?_
  refine .andThen (show Contract (.only KernelCall.Single) host m₁ _ fun _ _ => True from ?_)
    fun _ _ _ _ => .andThen propagate_single fun _ _ _ _ => .pure trivial
  split
  · exact attachMapped_single h
  · exact attachPlain_single h

/-- However it ends, the run makes calls for one mount each. Files come about as the
preparation of a mount point that is to be a file makes them, and a run that succeeds
has found the target or made it: the missing names, as directories and last an empty
file. -/
structure BoundSingly (ex : Executor) (host : Host) (m : Machine) (op : MountOp) : Prop where
  calls : ∃ new, ((ex.apply op).result host m).2.log = m.log ++ new
    ∧ ∀ moment ∈ new, moment.event.call.Single
  prepared : ((ex.apply op).result host m).2.tree
    = ((ex.rootfs.prepare op.target .file).result host m).2.tree
  placed : ((ex.apply op).result host m).1.isOk = true →
    ∃ resolved, ex.rootfs.resolveWith m.tree op.target true = .ok resolved
      ∧ m.tree.Adds ((ex.apply op).result host m).2.tree (resolved.toMake .file)

theorem boundSingly (hoverlay : op.overlay = none) (hsource : op.source = .path source kind)
    (hkind : kind.placeholder = .file) (h : op.options.SingleMount) :
    BoundSingly ex host m op := by
  obtain ⟨htree, hcalls, hok⟩ := apply_single ex host m hoverlay hsource h
  rw [hkind] at htree hok
  refine ⟨hcalls, htree, fun hdone => ?_⟩
  cases hprepare : (ex.rootfs.prepare op.target .file).result host m with
  | mk outcome m' =>
      rw [hprepare] at htree hok
      cases outcome with
      | error e => exact absurd (hok hdone) (by simp [Except.isOk, Except.toBool])
      | ok resolved =>
          obtain ⟨hresolved, -, hadds⟩ := Rootfs.prepare_ok hprepare
          exact ⟨resolved, hresolved, htree ▸ hadds⟩

end Executor

/-- **A special file is bound alone, with all its restrictions.** An operation of a
plan with a path as its source is that of a bind, and for a device, a pipe or a socket
its options are those declared but for the recursive words, each replaced by the one
for a single mount; so it is read-only just if that was asked for, and mapped just if
that was. However carrying it out ends, on any files and with any answers, no call
reaches below one mount, and the mount point is prepared as a file. The options of a
directory or regular file are those declared. -/
theorem special_sources_bound_singly {tree : FileTree} {input : PlanInput} {plan : MountPlan}
    {op : MountOp} {real : Path} {kind : FileKind} (hplan : MountPlan.build tree input = .ok plan)
    (hop : op ∈ plan.ops) (hsource : op.source = .path real kind) :
    ∃ r ∈ input.requests, op.request = r ∧ r.kind = .bind
      ∧ ∃ o, MountOptions.parse r.options = .ok o
        ∧ (kind = .directory ∨ kind = .regular → op.options = o)
        ∧ (kind ≠ .directory → kind ≠ .regular →
          MountOptions.Narrowed o op.options ∧ op.options.isReadonly = o.isReadonly
            ∧ ((∃ mapping, op.idmap = some mapping) ↔ o.idmap ≠ .none)
            ∧ ∀ ex host m, Executor.BoundSingly ex host m op) := by
  have hdeclared : op.overlay = none := by
    rcases MountPlan.planned_of_mem hplan hop with ⟨r, -, hr⟩ | ⟨overlay, path, hpath⟩
    · exact (PlanInput.planMount_eq_ok hr).2.1
    · obtain ⟨target, -, rfl⟩ := PlanInput.planOverlay_iff.1 hpath
      cases hsource
  obtain ⟨r, hr, hplanned⟩ := MountPlan.mem_build hplan hop hdeclared
  obtain ⟨hrequest, -, o, hparse, hoptions⟩ := PlanInput.planMount_eq_ok hplanned
  have hbind : r.kind = .bind := by
    by_contra hkind
    obtain ⟨name, hvirtual⟩ := PlanInput.planMount_virtual hplanned hkind
    rw [hvirtual] at hsource
    cases hsource
  have hrestricted : op.options = o.restrictedTo kind := by rw [hoptions, hsource]; rfl
  refine ⟨r, hr, hrequest, hbind, o, hparse, fun hkind => ?_, fun hdirectory hregular => ?_⟩
  · rw [hrestricted]
    rcases hkind with rfl | rfl <;> rfl
  · have hspecial : kind.isSpecial = true := by
      cases kind <;> first | rfl | exact absurd rfl hdirectory | exact absurd rfl hregular
    have hplaceholder : kind.placeholder = .file := by
      cases kind <;> first | rfl | exact absurd rfl hdirectory
    have hnarrowed : MountOptions.Narrowed o op.options :=
      hrestricted ▸ MountOptions.narrowed_restrictedTo hspecial
    refine ⟨hnarrowed, hnarrowed.isReadonly_eq, ?_, fun ex host m =>
      Executor.boundSingly hdeclared hsource hplaceholder hnarrowed.singleMount⟩
    rw [PlanInput.planMount_idmap hplanned, Ne, hnarrowed.idmap_eq_none_iff]
    exact and_iff_left ⟨real, kind, hsource⟩

namespace Executor

/-- A root with a directory `d` in it, and beside it a pipe `/p` and a symlink `/l`
to that. -/
def pipeTree : FileTree :=
  Sample.files [([0x64], .dir 0o755 [])] [([0x70], .fifo), ([0x6C], .symlink ⟨[0x70]⟩)]

/-- A bind of `/l` on `/d/n`, with every recursive word. -/
def pipeRequest : MountRequest :=
  { destination := "/d/n", kind := .bind, source := some "/l",
    options := ["rbind", "rro", "ridmap"],
    uidMapping := some Sample.rootOnly, gidMapping := some Sample.rootOnly }

/-- The operation of that bind. -/
def pipeOp : MountOp :=
  { request := pipeRequest, target := ⟨[slash, 0x64, slash, 0x6E]⟩,
    source := .path ⟨[slash, 0x70]⟩ .fifo,
    options := { bind := .bind, access := .readOnly, idmap := .idmap }, depth := 2, phase := .mount,
    idmap := some ⟨Sample.rootOnly, Sample.rootOnly⟩ }

end Executor

/-- The pipe is bound alone, on an empty file that is made for it, while an opening is
interrupted. -/
theorem special_sources_bound_singly_pipe :
    let run := (Sample.executor.apply Executor.pipeOp).result
      (Sample.refusing .uidMap .interrupted) { tree := Executor.pipeTree }
    MountPlan.build Executor.pipeTree { mounts := [Executor.pipeRequest] }
        = .ok ⟨[Executor.pipeOp]⟩
      ∧ MountOptions.Narrowed { bind := .rbind, access := .recursiveReadOnly, idmap := .ridmap }
          Executor.pipeOp.options
      ∧ run.1 = .ok .idMapped ∧ run.2.tree.statAt? [[0x72], [0x64], [0x6E]] = some (.file 0o644 [])
      ∧ ∃ new, run.2.log = [] ++ new ∧ ∀ moment ∈ new, moment.event.call.Single := by
  intro run
  have hplan : MountPlan.build Executor.pipeTree { mounts := [Executor.pipeRequest] }
      = .ok ⟨[Executor.pipeOp]⟩ := MountPlan.build_eq_singleton rfl rfl rfl
  obtain ⟨r, -, rfl, -, o, hparse, -, hspecial⟩ :=
    special_sources_bound_singly hplan (List.mem_singleton_self _) rfl
  obtain ⟨hnarrowed, -, -, hbound⟩ := hspecial (by decide) (by decide)
  obtain rfl : { bind := .rbind, access := .recursiveReadOnly, idmap := .ridmap } = o :=
    Except.ok.inj hparse
  exact ⟨hplan, hnarrowed, by decide +kernel, by decide +kernel, (hbound _ _ _).calls⟩

end ContainerMounts
