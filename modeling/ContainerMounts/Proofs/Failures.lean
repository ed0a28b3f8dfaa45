/-
ContainerMounts.Proofs.Failures — how a refused call shows in the result of
an action.

A call that the kernel refuses either has a way around it, or ends the run.
There are three ways around (`Event.Recovered`): a new sysfs and a new
control group filesystem can be replaced by the host's, and the recursive
read-only call by a remount. `Run.Surfaces` says of an action that whatever
else is refused is the last call on record, that the files stay as they
were then, and that the error carries the kernel's number; and that an
action that succeeds leaves nothing refused but what it went around
(`Event.Settled`).

The helper process of an id mapping is written to through files, and two
more refusals are passed over there: a kernel without the file for
`setgroups` needs no denial, and a write that is interrupted is made again.

Surfacing is closed under `bind`, so each function is shown to surface from
those that it calls.
-/
import ContainerMounts.Proofs.CallContracts
import ContainerMounts.Proofs.Preparation

namespace ContainerMounts

/-! ## Refusals -/

/-- The call makes or changes a mount. -/
def KernelCall.changesMounts : KernelCall → Bool
  | .write .. | .unshare .. => false
  | _ => true

namespace Event

/-- A refusal that there is a way around. -/
inductive Recovered : Event → Prop where
  /-- A new sysfs, which only the owner of the network may mount. -/
  | sysfs (target : Path) (flags : MountFlags) (data : Option String) :
      Recovered ⟨.mount (some (Run.sourceName "sysfs")) (.at target) (some "sysfs") flags data,
        some .perm⟩
  /-- A new control group filesystem. -/
  | cgroup (target : Path) (flags : MountFlags) (data : Option String) {e : Errno}
      (he : e = .perm ∨ e = .busy) :
      Recovered ⟨.mount (some (Run.sourceName "cgroup2")) (.at target) (some "cgroup2") flags data,
        some e⟩
  /-- The recursive read-only call, on a kernel without it. -/
  | readonly (target : Path) : Recovered ⟨Contract.readonlyCall target, some .notImplemented⟩

/-- The call was accepted, or there is a way around its refusal. -/
def Passed (e : Event) : Prop := e.refusal = none ∨ e.Recovered

/-- The event of a run that succeeds, in view of what was on record after
it. -/
inductive Settled : Event → List Moment → Prop where
  | passed {e : Event} {after : List Moment} (h : e.Passed) : Settled e after
  /-- The kernel has no file to deny `setgroups` by. -/
  | undeniable (text : String) (after : List Moment) :
      Settled ⟨.write .setgroups text, some .noEntry⟩ after
  /-- The write was interrupted and is made again. -/
  | again {file : MapFile} {text : String} {next : Moment} {rest : List Moment}
      (h : next.event.call = .write file text) :
      Settled ⟨.write file text, some .interrupted⟩ (next :: rest)

theorem Settled.mono {e : Event} {after more : List Moment} (h : e.Settled after) :
    e.Settled (after ++ more) := by
  cases h with
  | passed h => exact .passed h
  | undeniable text => exact .undeniable text _
  | again h => exact .again h

theorem Settled.passes {e : Event} {after : List Moment} (h : e.Settled after)
    (hmounts : e.call.changesMounts = true) : e.Passed := by
  cases h with
  | passed h => exact h
  | undeniable text => simp [KernelCall.changesMounts] at hmounts
  | again h => simp [KernelCall.changesMounts] at hmounts

end Event

/-- Every event is settled by those behind it. -/
abbrev Settles : List Moment → Prop := InOrder fun moment after => moment.event.Settled after

/-- No mount call is left refused without a way around. -/
def Passes (log : List Moment) : Prop :=
  ∀ moment ∈ log, moment.event.call.changesMounts = true → moment.event.Passed

section Logs

variable {xs ys : List Moment}

theorem Settles.append (hx : Settles xs) (hy : Settles ys) : Settles (xs ++ ys) :=
  InOrder.append (fun _ _ _ h => h.mono) hx hy

theorem Settles.passes (h : Settles xs) : Passes xs := by
  intro moment hmoment hmounts
  obtain ⟨before, after, heq⟩ := List.append_of_mem hmoment
  exact (InOrder.at h heq).passes hmounts

theorem Passes.append (hx : Passes xs) (hy : Passes ys) : Passes (xs ++ ys) :=
  List.forall_mem_append.2 ⟨hx, hy⟩

end Logs

/-! ## How actions end -/

variable {α β : Type}

/-- How an action that started on the machine may end. -/
inductive Ended (m : Machine) : Except Error α × Machine → Prop where
  /-- It succeeds. -/
  | done {a : α} {m' : Machine} (new : List Moment) (hlog : m'.log = m.log ++ new)
      (hnew : Settles new) : Ended m (.ok a, m')
  /-- It fails for a reason other than a mount call. -/
  | failed {e : Error} {m' : Machine} (new : List Moment) (hlog : m'.log = m.log ++ new)
      (hnew : Passes new) : Ended m (.error e, m')
  /-- It fails with the last call. -/
  | refused {operation : String} {target : Path} {e : Errno} {m' : Machine}
      (new : List Moment) (last : Moment) (hlog : m'.log = m.log ++ (new ++ [last]))
      (hnew : Passes new) (hlast : last.event.refusal = some e) (htree : m'.tree = last.tree) :
      Ended m (.error (.mount operation target (.os e)), m')

/-- Whatever the host and the machine are, a refused mount call shows. -/
def Run.Surfaces (act : Run α) : Prop := ∀ host m, Ended m (act.result host m)

/-- What a call was answered: it was withheld, or put on record with the
answer. -/
inductive Answered (m : Machine) (call : KernelCall) : Option Errno → Machine → Prop where
  | withheld {e : Errno} {m' : Machine} (log : m'.log = m.log) : Answered m call (some e) m'
  | made {refusal : Option Errno} {m' : Machine} (tree : m'.tree = m.tree)
      (log : m'.log = m.log ++ [⟨m.tree, ⟨call, refusal⟩⟩]) : Answered m call refusal m'

namespace Ended

variable {m m' : Machine} {call : KernelCall} {ending : Except Error α × Machine}

/-- What was settled before does not count. -/
theorem behind {xs : List Moment} (hlog : m'.log = m.log ++ xs) (hxs : Settles xs)
    (h : Ended m' ending) : Ended m ending := by
  cases h with
  | done new hlog' hnew =>
      exact .done (xs ++ new) (by rw [hlog', hlog, List.append_assoc]) (hxs.append hnew)
  | failed new hlog' hnew =>
      exact .failed (xs ++ new) (by rw [hlog', hlog, List.append_assoc]) (hxs.passes.append hnew)
  | refused new last hlog' hnew hlast htree =>
      exact .refused (xs ++ new) last (by rw [hlog', hlog]; simp only [List.append_assoc])
        (hxs.passes.append hnew) hlast htree

theorem behind_eq (hlog : m'.log = m.log) (h : Ended m' ending) : Ended m ending := by
  have hnothing : m'.log = m.log ++ [] := by rw [hlog, List.append_nil]
  exact .behind hnothing trivial h

/-- A call that was accepted is settled. -/
theorem behind_accepted (h : Answered m call none m') (hend : Ended m' ending) :
    Ended m ending := by
  cases h with
  | made tree log => exact .behind log ⟨.passed (.inl rfl), trivial⟩ hend

/-- A refusal that there is a way around is settled. -/
theorem behind_recovered {e : Errno} (h : Answered m call (some e) m')
    (hrecovered : Event.Recovered ⟨call, some e⟩) (hend : Ended m' ending) : Ended m ending := by
  cases h with
  | withheld log => exact .behind_eq log hend
  | made tree log => exact .behind log ⟨.passed (.inr hrecovered), trivial⟩ hend

/-- A refusal that ends the action shows in its error. -/
theorem of_answered {operation : String} {target : Path} {e : Errno}
    (h : Answered m call (some e) m') :
    Ended m ((.error (.mount operation target (.os e)), m') : Except Error α × Machine) := by
  cases h with
  | withheld log => exact .failed [] (by simpa using log) (by simp [Passes])
  | made tree log => exact .refused [] _ log (by simp [Passes]) rfl tree

/-- An operation with an argument that cannot be passed fails as well. -/
theorem of_issued {operation : String} {target : Path} {fault : Fault}
    (h : Issued m call (some fault) m') :
    Ended m ((.error (.mount operation target fault), m') : Except Error α × Machine) := by
  generalize hsome : some fault = result at h
  cases h with
  | withheld tree log => exact .failed [] (by simpa using log) (by simp [Passes])
  | @made refusal _ tree log =>
      cases refusal with
      | none => simp at hsome
      | some e =>
          obtain rfl : fault = .os e := by simpa using hsome
          exact .of_answered (.made tree log)

/-- Of the mount calls of a run only the last can be refused without a way
around, and the error tells. -/
theorem refusal_shows {before after : List Moment} {moment : Moment} {e : Errno}
    (h : Ended m ending) (hlog : ending.2.log = m.log ++ (before ++ moment :: after))
    (hmounts : moment.event.call.changesMounts = true) (hrefusal : moment.event.refusal = some e) :
    moment.event.Recovered ∨ after = [] ∧ ending.2.tree = moment.tree
      ∧ ∃ operation target, ending.1 = .error (.mount operation target (.os e)) := by
  have hrecovered {new : List Moment} (hnew : Passes new) (hmem : moment ∈ new) :
      moment.event.Recovered := by
    rcases hnew moment hmem hmounts with hnone | hrecovered
    · simp [hnone] at hrefusal
    · exact hrecovered
  cases h with
  | done new hlog' hnew =>
      obtain rfl := List.append_cancel_left (hlog'.symm.trans hlog)
      exact .inl (hrecovered hnew.passes (by simp))
  | failed new hlog' hnew =>
      obtain rfl := List.append_cancel_left (hlog'.symm.trans hlog)
      exact .inl (hrecovered hnew (by simp))
  | refused new last hlog' hnew hlast htree =>
      have heq := List.append_cancel_left (hlog'.symm.trans hlog)
      rcases List.eq_nil_or_concat after with rfl | ⟨after, final, rfl⟩
      · obtain ⟨rfl, rfl⟩ : new = before ∧ last = moment := by simpa using heq
        obtain rfl := Option.some.inj (hlast.symm.trans hrefusal)
        exact .inr ⟨rfl, htree, _, _, rfl⟩
      · have hconcat : new ++ [last] = (before ++ moment :: after) ++ [final] := by simpa using heq
        obtain ⟨rfl, -⟩ := List.append_inj' hconcat rfl
        exact .inl (hrecovered hnew (by simp))

/-- What is on record after a success is settled. -/
theorem settled {a : α} {before after : List Moment} {moment : Moment} (h : Ended m ending)
    (hok : ending.1 = .ok a) (hlog : ending.2.log = m.log ++ (before ++ moment :: after)) :
    moment.event.Settled after := by
  cases h with
  | done new hlog' hnew => exact InOrder.at hnew (List.append_cancel_left (hlog'.symm.trans hlog))
  | failed | refused => simp at hok

theorem log_grows (h : Ended m ending) : m.log <+: ending.2.log := by
  cases h with
  | done new hlog => exact ⟨new, hlog.symm⟩
  | failed new hlog => exact ⟨new, hlog.symm⟩
  | refused new last hlog => exact ⟨_, hlog.symm⟩

end Ended

theorem Issued.answered_none {m m' : Machine} {call : KernelCall} (h : Issued m call none m') :
    Answered m call none m' :=
  .made h.accepted.tree h.accepted.log

theorem Issued.answered_some {m m' : Machine} {call : KernelCall} {e : Errno}
    (h : Issued m call (some (.os e)) m') : Answered m call (some e) m' :=
  .made h.refused.1 h.refused.2

/-! ## Combinations of actions -/

namespace Run.Surfaces

variable {act : Run α} {f : α → Run β}

theorem pure (a : α) : (Pure.pure a : Run α).Surfaces := fun host m => by
  rw [Run.result_pure]
  exact .done [] (by simp) trivial

theorem throw (e : Error) : (MonadExcept.throw e : Run α).Surfaces := fun host m => by
  rw [Run.result_throw]
  exact .failed [] (by simp) (by simp [Passes])

theorem throw_bind (e : Error) : ((MonadExcept.throw e : Run α) >>= f).Surfaces := fun host m => by
  rw [Run.result_bind, Run.result_throw]
  exact .failed [] (by simp) (by simp [Passes])

/-- One action after the other. -/
theorem bind (h : act.Surfaces) (hf : ∀ a, (f a).Surfaces) : (act >>= f).Surfaces := by
  intro host m
  have hact := h host m
  rw [Run.result_bind]
  cases hr : act.result host m with
  | mk outcome m' =>
      rw [hr] at hact
      cases hact with
      | done new hlog hnew => exact .behind hlog hnew (hf _ host m')
      | failed new hlog hnew => exact .failed new hlog hnew
      | refused new last hlog hnew hlast htree => exact .refused new last hlog hnew hlast htree

/-- What makes no call has nothing to show. -/
theorem of_silent (h : ∀ host m, Contract .silent host m act fun _ _ => True) :
    act.Surfaces := by
  intro host m
  have hlog := (h host m).kept.log_eq
  cases hr : act.result host m with
  | mk outcome m' =>
      rw [hr] at hlog
      cases outcome with
      | ok a => exact .done [] (by simpa using hlog) trivial
      | error e => exact .failed [] (by simpa using hlog) (by simp [Passes])

theorem read : (MonadReader.read : Run Host).Surfaces :=
  of_silent fun _ _ => .read trivial

theorem tree : Run.tree.Surfaces :=
  of_silent fun _ _ => .tree trivial

theorem lift {e : Except Error α} : (Run.lift e).Surfaces :=
  of_silent fun _ _ => .lift fun _ _ => trivial

theorem ask {question : FileTree → Except Fault α} : (Run.ask question).Surfaces :=
  of_silent fun _ _ => .ask fun _ _ => trivial

theorem table : Run.table.Surfaces :=
  of_silent fun _ _ => .table fun _ _ => trivial

theorem warn {warning : Warning} : (Run.warn warning).Surfaces :=
  of_silent fun _ _ => .warn fun _ _ _ => trivial

theorem attempt {kind : CallKind} : (Run.attempt kind).Surfaces :=
  of_silent fun _ _ => .attempt fun _ _ _ _ => trivial

theorem change? {edit : FileTree → Except Fault FileTree} : (Run.change? edit).Surfaces :=
  of_silent fun _ _ => .change? (fun _ _ _ _ _ => ⟨trivial, trivial⟩) fun _ _ => trivial

end Run.Surfaces

/-! ## Calls and their answers -/

namespace Run

variable (host : Host) (m : Machine)

theorem result_issue (kind : CallKind) (call : KernelCall) :
    ∃ refusal m', (issue kind call).result host m = (.ok refusal, m')
      ∧ Answered m call refusal m' :=
  ⟨_, _, rfl, .made rfl rfl⟩

theorem result_mountCall (args : MountArgs) :
    ∃ fault m', (mountCall args).result host m = (.ok fault, m') ∧ Issued m args.call fault m' := by
  unfold mountCall
  split
  · exact ⟨_, _, rfl, .withheld rfl rfl⟩
  · exact ⟨_, _, rfl, .made rfl rfl⟩

theorem result_mountCall? (operation : String) (args : MountArgs) :
    ∃ fault m', (mountCall? operation args).result host m
        = (.ok (fault.map fun f => .mount operation args.target.path f), m')
      ∧ Issued m args.call fault m' := by
  obtain ⟨fault, m', hresult, hissued⟩ := result_mountCall host m args
  refine ⟨fault, m', ?_, hissued⟩
  unfold mountCall?
  rw [result_bind, hresult]
  rfl

theorem result_setAttrAt (path : Path) (flags : AtFlags) (change : AttrChange) :
    ∃ fault m', (setAttrAt path flags change).result host m = (.ok fault, m')
      ∧ Issued m (.setAttrAt path flags change) fault m' := by
  unfold setAttrAt
  split
  · exact ⟨_, _, rfl, .withheld rfl rfl⟩
  · exact ⟨_, _, rfl, .made rfl rfl⟩

theorem result_cloneTree (path : Path) (recursive : Bool) :
    ∃ answer m', (cloneTree path recursive).result host m = (.ok answer, m')
      ∧ Answered m (.openTree path (cloneFlags recursive))
          (match answer with | .ok _ => none | .error e => some e) m' := by
  unfold cloneTree
  split
  · exact ⟨_, _, rfl, .withheld rfl⟩
  · rw [result_bind, result_attempt]
    dsimp only
    rw [result_bind, result_tree]
    dsimp only
    split
    · exact ⟨_, _, rfl, .made rfl rfl⟩
    · exact ⟨_, _, rfl, .made rfl rfl⟩

theorem result_attachTree (tree : Path) (target : Spot) :
    ∃ refusal m', (attachTree tree target).result host m = (.ok refusal, m')
      ∧ Answered m (.moveMount tree target) refusal m' := by
  unfold attachTree
  split
  · exact ⟨_, _, rfl, .withheld rfl⟩
  · exact result_issue host m _ _

end Run

/-! ## The mount operations -/

namespace Run.Surfaces

variable {source target : Path} {flags : MountFlags} {data : String}

theorem operation {name : String} {args : MountArgs} :
    (mountCall? name args >>= raise).Surfaces := by
  intro host m
  obtain ⟨fault, m', hresult, hissued⟩ := result_mountCall? host m name args
  rw [result_bind, hresult]
  cases fault with
  | none => exact .behind_accepted hissued.answered_none (pure () host m')
  | some fault => exact .of_issued hissued

theorem mountFilesystem {source target : Spot} {fsType : String} :
    (Run.mountFilesystem source target fsType flags data).Surfaces :=
  operation

theorem bindMount {source target : Spot} {recursive : Bool} :
    (Run.bindMount source target recursive).Surfaces :=
  operation

theorem remountBind : (Run.remountBind target flags).Surfaces :=
  operation

theorem remount : (Run.remount target flags data).Surfaces :=
  operation

theorem setPropagation {propagation : Propagation} :
    (Run.setPropagation target propagation).Surfaces :=
  operation

theorem inherit {wanted : MountFlags} : (Run.inherit target wanted).Surfaces :=
  .bind .table fun _ => .pure _

theorem inheritRelaxed {wanted relaxed : MountFlags} :
    (Run.inheritRelaxed target wanted relaxed).Surfaces :=
  .bind .table fun _ => .pure _

theorem isMountPoint : (Run.isMountPoint target).Surfaces :=
  .bind .table fun _ => .pure _

/-- On a kernel without the recursive call a remount takes its place. -/
theorem makeReadonlyRecursive : (Run.makeReadonlyRecursive target flags).Surfaces := by
  intro host m
  obtain ⟨fault, m', hresult, hissued⟩ :=
    result_setAttrAt host m target AtFlags.recursive readonlyChange
  unfold Run.makeReadonlyRecursive
  rw [result_bind, hresult]
  cases fault with
  | none => exact .behind_accepted hissued.answered_none (pure () host m')
  | some fault =>
      dsimp only
      split
      · rename_i hfault
        subst hfault
        have hfallback : (do
            Run.warn (.topMountOnly target)
            Run.remountBind target (flags ||| MountFlags.readonly)).Surfaces :=
          .bind .warn fun _ => .remountBind
        exact .behind_recovered hissued.answered_some (.readonly target) (hfallback host m')
      · exact .of_issued hissued

end Run.Surfaces

end ContainerMounts
