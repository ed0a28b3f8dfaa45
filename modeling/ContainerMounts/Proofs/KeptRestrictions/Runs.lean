/-
ContainerMounts.Proofs.KeptRestrictions.Runs — restrictions survive the
remounts of a run.

What a bind remount may leave out depends on the operation that makes it:
only a bind opens anything. `Serves` names the operation that a run is at
when it makes its call number `n`; there is at most one. `apply_upholds`
is the statement for an operation, by the kind of its source, and
`execute_upholds` the one for a run. The remount of the root at the end
serves no operation and leaves out nothing.

`execute_drops_nosuid` is a run where the exception shows: a recursive
read-only bind on a kernel without the attribute call ends with a remount
that takes `nosuid` away.
-/
import ContainerMounts.Executor
import ContainerMounts.Proofs.KeptRestrictions
import ContainerMounts.Proofs.Planning
import ContainerMounts.Proofs.Preparation
import ContainerMounts.Proofs.SampleHost

namespace ContainerMounts

open MountFlags hiding none bind remount readonly recursive

/-- The restrictions that an operation may open: only those of a bind. -/
def MountOp.relaxed (op : MountOp) : MountFlags :=
  match op.source with
  | .path .. => op.options.relaxed
  | _ => 0

/-- The flags that an operation asks for by itself, where it makes a mount
read-only. -/
def MountOp.ownFlags (op : MountOp) : MountFlags := op.options.flags ||| MountFlags.readonly

/-! ## Two actions -/

namespace Run

variable {α β : Type} {host : Host} {m : Machine} {act : Run α} {f : α → Run β}

/-- What is done with the value that an action returns does not undo its
calls. -/
theorem log_bind (hf : ∀ a m', m'.log <+: ((f a).result host m').2.log) :
    (act.result host m).2.log <+: ((act >>= f).result host m).2.log := by
  rw [result_bind]
  cases act.result host m with
  | mk outcome m' =>
      cases outcome with
      | ok a => exact hf a m'
      | error e => exact List.prefix_rfl

/-- A call of two actions is one of the first or one of the second. -/
theorem call_of_bind {before : List Moment} {moment : Moment}
    (hf : ∀ a m', m'.log <+: ((f a).result host m').2.log)
    (hlog : before ++ [moment] <+: ((act >>= f).result host m).2.log) :
    before ++ [moment] <+: (act.result host m).2.log
      ∨ ∃ a m', act.result host m = (.ok a, m') ∧ m'.log.length ≤ before.length
        ∧ before ++ [moment] <+: ((f a).result host m').2.log := by
  have hfirst : (act.result host m).2.log <+: ((act >>= f).result host m).2.log := log_bind hf
  by_cases hle : (before ++ [moment]).length ≤ (act.result host m).2.log.length
  · exact .inl (List.prefix_of_prefix_length_le hlog hfirst hle)
  · rw [List.length_append, List.length_singleton] at hle
    rw [result_bind] at hlog
    cases hact : act.result host m with
    | mk outcome m' =>
        rw [hact] at hlog hle
        cases outcome with
        | ok a => exact .inr ⟨a, m', rfl, Nat.le_of_lt_succ (Nat.lt_of_not_le hle), hlog⟩
        | error e => exact .inl hlog

theorem call_of_bind_pure {g : α → β} {before : List Moment} {moment : Moment}
    (hlog : before ++ [moment] <+: ((act >>= fun a => (pure (g a) : Run β)).result host m).2.log) :
    before ++ [moment] <+: (act.result host m).2.log := by
  rw [result_bind] at hlog
  cases hact : act.result host m with
  | mk outcome m' =>
      rw [hact] at hlog
      cases outcome with
      | ok a => exact hlog
      | error e => exact hlog

end Run

namespace Upholding

variable {allowed : List Moment → Path → MountFlags → Prop} {host : Host} {m : Machine}
  {ex : Executor} {op : MountOp} {target : Path} {options : MountOptions}
  {relaxed own : MountFlags}

/-! ## Operations -/

theorem prepare {placeholder : Placeholder} :
    Contract (.remounts allowed) host m (ex.rootfs.prepare target placeholder) fun _ _ => True :=
  (Rootfs.prepare_silent.promise fun _ h => .of_files trivial h.log_eq).mono
    fun _ _ _ _ => trivial

theorem pin {resolved : ResolvedPath} :
    Contract (.remounts allowed) host m (ex.rootfs.pin resolved) fun _ _ => True :=
  Rootfs.pin_contract.mono fun _ _ _ _ => trivial

theorem finishReadonly (hown : options.flags ||| MountFlags.readonly = own) :
    Contract (.remounts (Upholds host relaxed own)) host m
      (Executor.finishReadonly target options) fun _ _ => True := by
  unfold Executor.finishReadonly
  split
  · exact makeReadonlyRecursive hown
  · exact .pure trivial

theorem attachMapped {source : Path} {pinned : Spot} {mapping : OwnerMapping}
    (hown : options.flags ||| MountFlags.readonly = own) :
    Contract (.remounts (Upholds host relaxed own)) host m
      (Executor.attachMapped source target pinned options mapping) fun _ _ => True :=
  .andThen bindIdMapped fun _ _ _ _ => .andThen (finishReadonly hown) fun _ _ _ _ => .pure trivial

/-- The remount of a bind opens what the options open, and nothing else. -/
theorem attachPlain {source : Path} {pinned : Spot}
    (hown : options.flags ||| MountFlags.readonly = own) :
    Contract (.remounts (Upholds host options.relaxed own)) host m
      (Executor.attachPlain source target pinned options) fun _ _ => True := by
  have hfinish : ∀ m₁, Contract (.remounts (Upholds host options.relaxed own)) host m₁ (do
      Executor.finishReadonly target options
      return Outcome.mounted) fun _ _ => True :=
    fun m₁ => .andThen (finishReadonly hown) fun _ _ _ _ => .pure trivial
  unfold Executor.attachPlain
  apply Contract.andThen bindMount
  intro _ m₁ _ hsettled
  split
  · refine .bind (.inheritRelaxed fun table htable _ => ?_)
    refine .andThen (remountBind fun flag hlisted hkept => ?_) fun _ m₂ _ _ => hfinish m₂
    have hincludes : (table.inheritRelaxed target options.flags options.relaxed).includes flag
        = true := hlisted.includes_inheritRelaxed htable hkept
    exact iff_of_true (includes_or_left (includes_or_left hincludes)) fun hfallback =>
      absurd hfallback (hsettled target)
  · exact hfinish m₁

theorem bindSource {source : Path} {kind : FileKind} :
    Contract (.remounts (Upholds host op.options.relaxed op.ownFlags)) host m
      (ex.bindSource op source kind) fun _ _ => True := by
  unfold Executor.bindSource
  refine .andThen prepare fun r m₁ _ _ => .andThen pin fun pinned m₂ _ _ => ?_
  split
  · exact attachMapped rfl
  · exact attachPlain rfl

theorem mountPlain {name : String} {resolved : ResolvedPath} :
    Contract (.remounts allowed) host m (ex.mountPlain op name resolved) fun _ _ => True :=
  .andThen pin fun _ _ _ _ =>
    .andThen (mountFilesystem op.options.flags_apart) fun _ _ _ _ => .pure trivial

theorem mountKind {name : String} {resolved : ResolvedPath} :
    Contract (.remounts (Upholds host relaxed op.ownFlags)) host m
      (ex.mountKind op name resolved) fun _ _ => True := by
  have hapart := op.options.flags_apart
  unfold Executor.mountKind
  cases op.request.kind with
  | proc => exact .andThen (mountFilesystem hapart) fun _ _ _ _ => .pure trivial
  | sysfs =>
      apply Contract.andThen (mountSysfs hapart rfl)
      intro hosts m₁ _ _
      split
      · exact .pure trivial
      · exact .pure trivial
  | cgroup => exact .andThen (mountCgroup hapart rfl) fun _ _ _ _ => .pure trivial
  | _ => exact mountPlain

theorem mountVirtual {name : String} :
    Contract (.remounts (Upholds host relaxed op.ownFlags)) host m
      (ex.mountVirtual op name) fun _ _ => True := by
  unfold Executor.mountVirtual
  refine .andThen prepare fun r m₁ _ _ => .andThen mountKind fun outcome m₂ _ _ => ?_
  exact .andThen (finishReadonly rfl) fun _ _ _ _ => .pure trivial

theorem protectPath {resolved : ResolvedPath} :
    Contract (.remounts (Upholds host relaxed own)) host m (ex.protectPath resolved)
      fun _ _ => True := by
  unfold Executor.protectPath
  refine .andThen pin fun pinned m₁ _ _ => .andThen bindMount fun _ m₂ _ hsettled => ?_
  refine .bind (.inherit fun table htable _ => ?_)
  exact .andThen (remountInherited hsettled htable) fun _ _ _ _ => .pure trivial

theorem hidePath {resolved : ResolvedPath} :
    Contract (.remounts (Upholds host relaxed own)) host m (ex.hidePath resolved)
      fun _ _ => True := by
  unfold Executor.hidePath
  refine .andThen pin fun pinned m₁ _ _ => .bind (.inherit fun table _ _ => ?_)
  refine .bind (.ask fun node _ _ => ?_)
  split
  · have hapart : Apart (table.inherit resolved.hostPath MountFlags.readonly) bindRemount :=
      MountTable.inherit_apart (by decide)
    exact .andThen (mountFilesystem hapart) fun _ _ _ _ => .pure trivial
  · refine .bind (.read fun _ => .andThen bindMount fun _ m₂ _ hsettled => ?_)
    refine .bind (.inherit fun table htable _ => ?_)
    exact .andThen (remountInherited hsettled htable) fun _ _ _ _ => .pure trivial

theorem overlayPath {kind : OverlayKind} :
    Contract (.remounts (Upholds host relaxed own)) host m (ex.overlayPath target kind)
      fun _ _ => True := by
  unfold Executor.overlayPath
  refine .bind (.tree fun _ => .bind (.lift fun r _ _ => ?_))
  split
  · exact .pure trivial
  · cases kind with
    | readonly => exact protectPath
    | masked => exact hidePath

theorem propagate :
    Contract (.remounts allowed) host m (ex.propagate target options) fun _ _ => True := by
  unfold Executor.propagate
  split
  · exact .pure trivial
  · exact .bind (.tree fun _ => .bind (.lift fun r _ _ => setPropagation))

theorem materializeSymlink {text : Path} :
    Contract (.remounts allowed) host m (ex.materializeSymlink target text) fun _ _ => True := by
  unfold Executor.materializeSymlink
  apply Contract.andThen prepare
  intro r m₁ _ _
  refine .bind (.change? (fun _ _ _ _ _ => ⟨trivial, fun _ => .pure trivial⟩) fun fault _ _ => ?_)
  refine .bind (.tree fun _ => ?_)
  split
  · exact .pure trivial
  · exact .throw

end Upholding

namespace Executor

variable {ex : Executor} {plan : MountPlan} {host : Host} {m m' : Machine} {op op' : MountOp}
  {ops : List MountOp} {n : Nat} {before after : List Moment} {moment : Moment} {p : Path}
  {flags : MountFlags}

/-- **The bind remounts of an operation.** Wherever the operation stops, each
of them has the restrictions that the table lists for its path, but for
those that a bind opens and those that the fallback does not ask for. -/
theorem apply_upholds :
    Contract (.remounts (Upholds host op.relaxed op.ownFlags)) host m (ex.apply op)
      fun _ _ => True := by
  unfold apply
  split
  · exact Upholding.overlayPath
  · unfold applyMount
    split
    · exact Upholding.materializeSymlink
    · rename_i source kind hsource
      have hrelaxed : op.relaxed = op.options.relaxed := by rw [MountOp.relaxed, hsource]
      rw [hrelaxed]
      apply Contract.andThen Upholding.bindSource
      intro outcome m₁ _ _
      exact .andThen Upholding.propagate fun _ _ _ _ => .pure trivial
    · apply Contract.andThen Upholding.mountVirtual
      intro outcome m₁ _ _
      exact .andThen Upholding.propagate fun _ _ _ _ => .pure trivial
    · exact .throw

/-! ## Whose call it is -/

/-- Of these operations, carried out from the machine on, this one makes call
number `n`. -/
inductive Serving (ex : Executor) (host : Host) :
    Machine → List MountOp → Nat → MountOp → Prop where
  | now {m : Machine} {op : MountOp} {rest : List MountOp} {n : Nat} (hfrom : m.log.length ≤ n)
      (hto : n < ((ex.apply op).result host m).2.log.length) :
      Serving ex host m (op :: rest) n op
  | later {m m' : Machine} {op op' : MountOp} {rest : List MountOp} {n : Nat} {outcome : Outcome}
      (happly : (ex.apply op).result host m = (.ok outcome, m'))
      (h : Serving ex host m' rest n op') : Serving ex host m (op :: rest) n op'

/-- The run of the plan makes call number `n` for this operation. -/
def Serves (ex : Executor) (plan : MountPlan) (host : Host) (m : Machine) (n : Nat)
    (op : MountOp) : Prop :=
  ∃ m', ex.prepareRootfs.result host m = (.ok (), m') ∧ Serving ex host m' plan.ops n op

theorem apply_log : m.log <+: ((ex.apply op).result host m).2.log :=
  apply_upholds.kept.log_grows

theorem Serving.from_le (h : Serving ex host m ops n op) : m.log.length ≤ n := by
  induction h with
  | now hfrom hto => exact hfrom
  | @later m m' first _ rest n outcome happly h ih =>
      have hgrown : m.log <+: ((ex.apply first).result host m).2.log := apply_log
      rw [happly] at hgrown
      exact Nat.le_trans hgrown.length_le ih

theorem Serving.unique (h : Serving ex host m ops n op) (h' : Serving ex host m ops n op') :
    op = op' := by
  induction h with
  | now hfrom hto =>
      cases h' with
      | now => rfl
      | later happly hrest =>
          rw [happly] at hto
          exact absurd hto (Nat.not_lt.2 hrest.from_le)
  | later happly hrest ih =>
      cases h' with
      | now hfrom hto =>
          rw [happly] at hto
          exact absurd hto (Nat.not_lt.2 hrest.from_le)
      | later happly' hrest' =>
          obtain rfl := (Prod.mk.inj (happly.symm.trans happly')).2
          exact ih hrest'

/-- A call serves at most one operation. -/
theorem Serves.unique (h : Serves ex plan host m n op) (h' : Serves ex plan host m n op') :
    op = op' := by
  obtain ⟨m₁, hprepare, h⟩ := h
  obtain ⟨m₂, hprepare', h'⟩ := h'
  obtain rfl := (Prod.mk.inj (hprepare.symm.trans hprepare')).2
  exact h.unique h'

/-! ## Runs -/

theorem applyAll_log {entries : List MountOp} :
    m.log <+: ((ex.applyAll entries).result host m).2.log := by
  induction entries generalizing m with
  | nil => exact List.prefix_rfl
  | cons op rest ih =>
      refine apply_log.trans (Run.log_bind fun outcome m' => ?_)
      exact (ih (m := m')).trans (Run.log_bind fun _ _ => List.prefix_rfl)

/-- The log of the operations behind the first. -/
theorem applyAll_rest_log {outcome : Outcome} {rest : List MountOp} (m : Machine) :
    m.log <+: (Run.result (do return ReportEntry.mk op.target outcome :: (← ex.applyAll rest))
      host m).2.log :=
  applyAll_log.trans (Run.log_bind fun _ _ => List.prefix_rfl)

/-- Every bind remount serves an operation, and upholds as it has to. -/
theorem applyAll_upholds (hlog : before ++ [moment] <+: ((ex.applyAll ops).result host m).2.log)
    (hnew : m.log.length ≤ before.length)
    (hcall : moment.event.call.bindRemount? = some (p, flags)) :
    ∃ op, Serving ex host m ops before.length op
      ∧ Upholds host op.relaxed op.ownFlags before p flags := by
  induction ops generalizing m with
  | nil =>
      have hle : (before ++ [moment]).length ≤ m.log.length := hlog.length_le
      rw [List.length_append, List.length_singleton] at hle
      omega
  | cons op rest ih =>
      have hkept : (Promise.remounts (Upholds host op.relaxed op.ownFlags)).Kept m
          ((ex.apply op).result host m).2 := apply_upholds.kept
      rcases Run.call_of_bind (fun _ => applyAll_rest_log) hlog with hfirst | hrest
      · have hto := hfirst.length_le
        rw [List.length_append, List.length_singleton] at hto
        exact ⟨op, .now hnew hto, hkept.call_at hfirst hnew p flags hcall⟩
      · obtain ⟨outcome, m', happly, hnew', hrest⟩ := hrest
        obtain ⟨op', hserving, hupholds⟩ := ih (Run.call_of_bind_pure hrest) hnew'
        exact ⟨op', .later happly hserving, hupholds⟩

theorem Serving.to_lt (h : Serving ex host m ops n op) :
    n < ((ex.applyAll ops).result host m).2.log.length := by
  induction h with
  | now hfrom hto =>
      exact Nat.lt_of_lt_of_le hto (Run.log_bind fun _ => applyAll_rest_log).length_le
  | later happly hrest ih =>
      rw [applyAll, Run.result_bind, happly]
      exact Nat.lt_of_lt_of_le ih (Run.log_bind fun _ _ => List.prefix_rfl).length_le

/-- Before the operations there is no bind remount. -/
theorem prepareRootfs_remounts :
    Contract (.remounts fun _ _ _ => False) host m ex.prepareRootfs fun _ _ => True := by
  unfold prepareRootfs
  refine .bind (.isMountPoint fun table _ _ => ?_)
  dsimp only
  split
  · exact .andThen Upholding.bindMount fun _ _ _ _ => Upholding.setPropagation
  · exact Upholding.setPropagation

/-- The remount of the root leaves no restriction out. -/
theorem finishRootfs_remounts :
    Contract (.remounts fun log p flags =>
      ∀ flag, Listed host log p flag → flags.includes flag = true) host m ex.finishRootfs
      fun _ _ => True := by
  unfold finishRootfs
  dsimp only
  split
  · refine .bind (.inherit fun table htable _ => ?_)
    refine .andThen (Upholding.remountBind fun flag hlisted => ?_) fun _ _ _ _ => .pure trivial
    exact includes_or_left (includes_or_left (hlisted.includes_inherit htable))
  · exact .pure trivial

/-- **No bind remount of a run drops a restriction, with one exception.** Of
the restrictions that the mount table lists, at the moment of the call, for
the mount that encloses its path, a bind remount lacks only those that the
operation it serves opens, being a bind, and, where it stands in for a
refused attribute call, those that the operation does not ask for itself.
A bind remount that serves no operation lacks none. -/
theorem execute_upholds (ex : Executor) (plan : MountPlan) (host : Host) (m : Machine)
    {before : List Moment} {moment : Moment} {p : Path} {flags : MountFlags}
    (hlog : before ++ [moment] <+: ((ex.execute plan).result host m).2.log)
    (hnew : m.log.length ≤ before.length)
    (hcall : moment.event.call.bindRemount? = some (p, flags)) :
    (∀ op, Serves ex plan host m before.length op →
        Upholds host op.relaxed op.ownFlags before p flags)
      ∧ ((∀ op, ¬ Serves ex plan host m before.length op) →
        ∀ flag, Listed host before p flag → flags.includes flag = true) := by
  have hfinish : ∀ (entries : List ReportEntry) (m' : Machine),
      m'.log <+: (Run.result (do return ExecutionReport.mk (entries ++ (← ex.finishRootfs)))
        host m').2.log := fun entries m' =>
    finishRootfs_remounts.kept.log_grows.trans (Run.log_bind fun _ _ => List.prefix_rfl)
  rcases Run.call_of_bind (fun _ _ => applyAll_log.trans (Run.log_bind hfinish)) hlog with
    hprepare | ⟨_, m₁, hprepare, hnew₁, hlog₁⟩
  · exact (prepareRootfs_remounts.kept.call_at hprepare hnew p flags hcall).elim
  · rcases Run.call_of_bind hfinish hlog₁ with hops | ⟨entries, m₂, hops, hnew₂, hlog₂⟩
    · obtain ⟨op, hserving, hupholds⟩ := applyAll_upholds hops hnew₁ hcall
      have hserves : Serves ex plan host m before.length op := ⟨m₁, hprepare, hserving⟩
      refine ⟨fun op' hserves' => ?_, fun hnone => absurd hserves (hnone op)⟩
      obtain rfl := hserves.unique hserves'
      exact hupholds
    · have hlast : before ++ [moment] <+: (ex.finishRootfs.result host m₂).2.log :=
        Run.call_of_bind_pure hlog₂
      refine ⟨fun op hserves => ?_, fun _ => ?_⟩
      · -- the operations are over before the root is remounted
        obtain ⟨m₁', hprepare', hserving⟩ := hserves
        obtain rfl := (Prod.mk.inj (hprepare.symm.trans hprepare')).2
        have hto := hserving.to_lt
        rw [hops] at hto
        exact absurd hnew₂ (Nat.not_le.2 hto)
      · exact finishRootfs_remounts.kept.call_at hlast hnew₂ p flags hcall

/-- A recursive read-only bind of `/s` on `/d`. -/
def rroRequest : MountRequest :=
  { destination := "/d", kind := .bind, source := some "/s", options := ["rro"] }

/-- The operation of that bind. -/
def rroOp : MountOp :=
  { request := rroRequest, target := ⟨[slash, 0x64]⟩, source := .path ⟨[slash, 0x73]⟩ .directory,
    options := { access := .recursiveReadOnly }, depth := 1, phase := .mount }

/-- A host without the attribute call, with `nosuid` on all its files. -/
def oldHost : Host :=
  { Host.granting {} (.ok [⟨Path.root, "ext4", "/dev/sda", ["nosuid"], []⟩]) with
    refusals := [⟨.mountSetattr, 0, .notImplemented⟩] }

/-- What it starts on. -/
def rroMachine : Machine := { tree := Sample.sourced }

/-- The calls of the bind on that host. -/
def rroLog : List Moment := ((Sample.executor.execute ⟨[rroOp]⟩).result oldHost rroMachine).2.log

theorem listed_nosuid (log : List Moment) :
    Listed oldHost log ⟨[slash, 0x72, slash, 0x64]⟩ nosuid := by
  have hunder : Path.under ⟨[slash, 0x72, slash, 0x64]⟩ Path.root = true := by decide
  refine ⟨_, ⟨Path.root, "ext4", "/dev/sda", ["nosuid"], []⟩, "nosuid", rfl, ?_, by decide, rfl⟩
  simp [MountTable.enclosing, MountTable.better, hunder]

theorem build_rro : MountPlan.build Sample.sourced { mounts := [rroRequest] } = .ok ⟨[rroOp]⟩ :=
  MountPlan.build_eq_singleton rfl rfl rfl

/-- The fallback is the last of six calls. -/
theorem rroLog_fallback : ∃ moment, rroLog.take 5 ++ [moment] <+: rroLog
    ∧ moment.event.call.bindRemount?
      = some (⟨[slash, 0x72, slash, 0x64]⟩, MountFlags.readonly ||| bindRemount) := by
  have hlength : 5 < rroLog.length := by decide +kernel
  refine ⟨rroLog[5], ?_, rfl⟩
  rw [List.take_append_getElem hlength]
  exact List.take_prefix _ _

theorem execute_upholds_rro :
    ∃ before moment p flags, before ++ [moment] <+: rroLog
      ∧ rroMachine.log.length ≤ before.length
      ∧ moment.event.call.bindRemount? = some (p, flags)
      ∧ (∀ op, Serves Sample.executor ⟨[rroOp]⟩ oldHost rroMachine before.length op →
          Upholds oldHost op.relaxed op.ownFlags before p flags)
      ∧ ((∀ op, ¬ Serves Sample.executor ⟨[rroOp]⟩ oldHost rroMachine before.length op) →
          ∀ flag, Listed oldHost before p flag → flags.includes flag = true) := by
  obtain ⟨moment, hlog, hcall⟩ := rroLog_fallback
  have hnew : rroMachine.log.length ≤ (rroLog.take 5).length := Nat.zero_le _
  refine ⟨_, moment, _, _, hlog, hnew, hcall, ?_⟩
  unfold rroLog at hlog hnew ⊢
  exact execute_upholds Sample.executor ⟨[rroOp]⟩ oldHost rroMachine hlog hnew hcall

/-- The fallback lacks the `nosuid` of the enclosing mount, which nothing in
the options opens. -/
theorem execute_drops_nosuid :
    MountPlan.build Sample.sourced { mounts := [rroRequest] } = .ok ⟨[rroOp]⟩
      ∧ ∃ before moment p flags, before ++ [moment] <+: rroLog
        ∧ moment.event.call.bindRemount? = some (p, flags) ∧ Listed oldHost before p nosuid
        ∧ rroOp.relaxed.includes nosuid = false ∧ flags.includes nosuid = false := by
  obtain ⟨moment, hlog, hcall⟩ := rroLog_fallback
  exact ⟨build_rro, _, moment, _, _, hlog, hcall, listed_nosuid _, by decide, by decide⟩

end Executor

end ContainerMounts
