/-
ContainerMounts.Proofs.AttachProtocol — the order in which an id-mapped
tree is attached.

Nine steps lead to an id-mapped mount (`attachSteps`): six make the user
namespace, a tree is copied, the mapping attached to the copy, and the copy
to the target. Six of them go on record (`attachCalls`). A tree whose
mapping was only half written would show files under wrong owners, so no
step may be made before all earlier ones have passed.

Main statement: whatever the host refuses, `Run.bindIdMapped` makes these
steps in this order, each when those before it have passed, and succeeds
just when the tree was attached (`bindIdMapped_protocol`). On record a step
may stand more than once, since the opening of a file is made again while
it is interrupted (`bindIdMapped_repeats_interrupted`).
-/
import ContainerMounts.Proofs.Attempts
import ContainerMounts.Proofs.Failures.Runs

namespace ContainerMounts

/-! ## The steps -/

/-- The steps to a user namespace with these tables. -/
def userNamespaceSteps (mapping : OwnerMapping) : List CallStep :=
  [⟨.fork, none⟩, ⟨.helperUnshare, none⟩,
   ⟨.uidMap, some (.write .uidMap mapping.uid.kernelText)⟩,
   ⟨.setgroups, some (.write .setgroups "deny")⟩,
   ⟨.gidMap, some (.write .gidMap mapping.gid.kernelText)⟩,
   ⟨.userNamespace, none⟩]

section Steps

variable (source : Path) (target : Spot) (recursive : Bool) (mapping : OwnerMapping)
  (set clear : MountAttrs) (real : Path)

/-- The attributes that the copy gets, together with the user namespace. -/
def attachedAttrs : AttrChange :=
  { set := MountAttrs.idmap ||| set, clear, userNamespace := true }

/-- The steps of an id-mapped bind, the copy's root being at a real path. -/
def attachSteps : List CallStep :=
  userNamespaceSteps mapping
    ++ [⟨.openTree, some (.openTree source (Run.cloneFlags recursive))⟩,
        ⟨.mountSetattr, some (.setAttrOf real (Run.copiedFlags recursive) (attachedAttrs set clear))⟩,
        ⟨.moveMount, some (.moveMount real target)⟩]

/-- Those that go on record. -/
def attachCalls : List KernelCall :=
  [.write .uidMap mapping.uid.kernelText,
   .write .setgroups "deny",
   .write .gidMap mapping.gid.kernelText,
   .openTree source (Run.cloneFlags recursive),
   .setAttrOf real (Run.copiedFlags recursive) (attachedAttrs set clear),
   .moveMount real target]

theorem attachSteps_calls : (attachSteps source target recursive mapping set clear real).filterMap
    (·.call?) = attachCalls source target recursive mapping set clear real := rfl

end Steps

/-- The calls on record, without those that were interrupted. -/
def settledCalls (tried : List Attempt) : List KernelCall :=
  (tried.filter (!·.interrupted)).filterMap (·.step.call?)

theorem Proceeds.settledCalls_prefix {steps : List CallStep} {tried : List Attempt}
    {complete : Bool} (h : Proceeds steps tried complete) :
    settledCalls tried <+: steps.filterMap (·.call?) := by
  have hcalls := h.in_order.filterMap (·.call?)
  rwa [List.filterMap_map] at hcalls

/-- What goes on record is what some step asks for, whether it was done, refused or
interrupted. -/
theorem Proceeds.call_mem {steps : List CallStep} {tried : List Attempt} {complete : Bool}
    {event : Event} (h : Proceeds steps tried complete)
    (hevent : event ∈ tried.filterMap Attempt.event?) :
    event.call ∈ steps.filterMap (·.call?) := by
  obtain ⟨a, ha, hevent⟩ := List.mem_filterMap.1 hevent
  obtain ⟨call, hcall, rfl⟩ := Option.map_eq_some_iff.1 hevent
  obtain ⟨before, after, hsplit⟩ := List.append_of_mem ha
  obtain ⟨rest, hsteps⟩ := h.reached hsplit
  rw [hsteps]
  exact List.mem_filterMap.2 ⟨a.step, by simp, hcall⟩

/-! ## The functions -/

section Functions

variable {host : Host} {m : Machine}

theorem writeMap_asks (file : MapFile) {text : String} :
    Asks host m ⟨file.callKind, some (.write file text)⟩ (Run.writeMap file text) id := by
  have hfile : CallStep.opensFile ⟨file.callKind, some (.write file text)⟩ = true := by
    cases file <;> rfl
  refine asks_uninterrupted hfile fun m => made_issue host m _ _ ?_
  cases file <;> rfl

/-- A table has to be accepted. -/
theorem CallStep.tolerates_table {file : MapFile} {call? : Option KernelCall} {e : Errno}
    (hfile : file ≠ .setgroups) : CallStep.tolerates ⟨file.callKind, call?⟩ e = false := by
  cases file <;> first | rfl | exact absurd rfl hfile

theorem writeTable_follows {file : MapFile} {mapping : IdMapping} (hfile : file ≠ .setgroups) :
    Follows host m (Run.writeTable file mapping)
      [⟨file.callKind, some (.write file mapping.kernelText)⟩] :=
  .demand (writeMap_asks file) (fun _ => CallStep.tolerates_table hfile) (fun _ _ => .pure)
    fun _ => ⟨_, rfl⟩

theorem denySetgroups_follows :
    Follows host m Run.denySetgroups [⟨.setgroups, some (.write .setgroups "deny")⟩] := by
  refine .ask (writeMap_asks .setgroups) (fun refusal m' _ _ hpassed => ?_)
    fun refusal e hrefused htolerates => ?_
  · cases refusal with
    | none => exact .pure
    | some e =>
        obtain rfl : e = .noEntry := by
          simpa [Attempt.passed_some, CallStep.tolerates] using hpassed
        exact .pure
  · obtain rfl : refusal = some e := hrefused
    have hother : e ≠ .noEntry := by simpa [CallStep.tolerates] using htolerates
    exact ⟨_, if_neg hother⟩

/-- A step that nothing goes on record of. -/
theorem attempt_asks {kind : CallKind} (hfile : CallStep.opensFile ⟨kind, none⟩ = false) :
    Asks host m ⟨kind, none⟩ (Run.attempt kind) id := by
  obtain ⟨answer, m', hresult, hmade⟩ := made_attempt host m kind
  refine ⟨answer, _, m', hresult, hmade, .inl (.last ?_)⟩
  simp [Attempt.interrupted, hfile]

/-- The namespace that the helper has made, without which nothing goes on. -/
theorem openNamespace_follows :
    Follows host m (do
      if let some e ← Run.uninterrupted (Run.attempt .userNamespace) then throw (.ofErrno e))
      [⟨.userNamespace, none⟩] :=
  .demand (asks_uninterrupted rfl fun _ => made_attempt _ _ .userNamespace) (fun _ => rfl)
    (fun _ _ => .pure) fun _ => ⟨_, rfl⟩

/-- The user namespace is made step by step. -/
theorem createUserNamespace_follows {mapping : OwnerMapping} :
    Follows host m (Run.createUserNamespace mapping) (userNamespaceSteps mapping) := by
  unfold Run.createUserNamespace
  refine .demand (attempt_asks rfl) (fun _ => rfl) (fun _ _ => ?_) fun _ => ⟨_, rfl⟩
  refine .demand (attempt_asks rfl) (fun _ => rfl) (fun _ _ => ?_) fun _ => ⟨_, rfl⟩
  exact (writeTable_follows (by decide)).bind fun _ _ => denySetgroups_follows.bind fun _ _ =>
    (writeTable_follows (by decide)).bind fun _ _ => openNamespace_follows

/-- The refusal in the answer to a request to copy a tree. -/
def cloneRefusal : Except Errno Path → Option Errno
  | .ok _ => none
  | .error e => some e

/-- The host's answer to a request to copy a tree, given the files. -/
theorem answer_openTree (host : Host) (tree : FileTree) (path : Path) (flags : AtFlags)
    (index : Nat) :
    CallStep.answer ⟨.openTree, some (.openTree path flags)⟩ host tree index
      = cloneRefusal ((Run.treeAnswer tree (host.answer .openTree index) path).map
          Path.ofNames) := by
  unfold CallStep.answer Run.treeAnswer CallStep.fault?
  dsimp only
  cases host.answer .openTree index with
  | some e => rfl
  | none => cases tree.locate true path <;> rfl

/-- What the request to copy a tree returns is what host and files say, and
it goes on record as that. -/
theorem cloneTree_made (host : Host) (m : Machine) {path : Path} (recursive : Bool)
    (hnul : path.nulPosition? = none) :
    ∃ answer m', (Run.cloneTree path recursive).result host m = (.ok answer, m')
      ∧ answer = (Run.treeAnswer m.tree (host.answer .openTree (m.attempts.count .openTree))
          path).map Path.ofNames
      ∧ Made host m [⟨⟨.openTree, some (.openTree path (Run.cloneFlags recursive))⟩,
          cloneRefusal answer⟩] m' := by
  have hanswer := answer_openTree host m.tree path (Run.cloneFlags recursive)
    (m.attempts.count .openTree)
  unfold Run.cloneTree
  rw [hnul, if_neg (by simp)]
  dsimp only
  rw [Run.result_bind, Run.result_attempt]
  dsimp only
  rw [Run.result_bind, Run.result_tree]
  dsimp only
  cases htree : Run.treeAnswer m.tree (host.answer .openTree (m.attempts.count .openTree)) path with
  | ok place =>
      rw [htree] at hanswer
      exact ⟨_, _, rfl, rfl, .one rfl rfl rfl hanswer.symm⟩
  | error e =>
      rw [htree] at hanswer
      exact ⟨_, _, rfl, rfl, .one rfl rfl rfl hanswer.symm⟩

theorem cloneTree_asks {path : Path} {recursive : Bool} :
    Asks host m ⟨.openTree, some (.openTree path (Run.cloneFlags recursive))⟩
      (Run.cloneTree path recursive) cloneRefusal := by
  cases hnul : path.nulPosition? with
  | some position =>
      refine ⟨.error .invalid, [], m, ?_, .nil, .inr ⟨rfl, ?_, .invalid, rfl, rfl⟩⟩
      · unfold Run.cloneTree
        rw [hnul]
        rfl
      · simp [CallStep.hasNul, hnul]
  | none =>
      obtain ⟨answer, m', hresult, -, hmade⟩ := cloneTree_made host m recursive hnul
      exact ⟨answer, _, m', hresult, hmade, .inl (.last rfl)⟩

/-- A copy is named by the real path of its root. -/
theorem cloneTree_ok {path real : Path} {recursive : Bool} {m' : Machine}
    (h : (Run.cloneTree path recursive).result host m = (.ok (.ok real), m')) :
    ∃ place, m.tree.locate true path = .ok place ∧ real = Path.ofNames place := by
  cases hnul : path.nulPosition? with
  | some position =>
      unfold Run.cloneTree at h
      rw [hnul] at h
      exact absurd (congrArg Prod.fst h) (by simp [Run.result_pure])
  | none =>
      obtain ⟨answer, m₁, hresult, hanswer, -⟩ := cloneTree_made host m recursive hnul
      rw [hresult] at h
      obtain rfl : answer = .ok real := Except.ok.inj (congrArg Prod.fst h)
      unfold Run.treeAnswer at hanswer
      split at hanswer
      · exact absurd hanswer (by simp [Except.map])
      · cases hplace : m.tree.locate true path with
        | error e => exact absurd hanswer (by simp [hplace, Except.map])
        | ok place =>
            rw [hplace] at hanswer
            exact ⟨place, rfl, Except.ok.inj hanswer⟩

theorem setAttrOf_asks {copy : Path} {recursive : Bool} {change : AttrChange} :
    Asks host m ⟨.mountSetattr, some (.setAttrOf copy (Run.copiedFlags recursive) change)⟩
      (Run.setAttrOf copy recursive change) id := by
  obtain ⟨answer, m', hresult, hmade⟩ := made_issue host m .mountSetattr
    (.setAttrOf copy (Run.copiedFlags recursive) change) rfl
  exact ⟨answer, _, m', hresult, hmade, .inl (.last rfl)⟩

theorem attachTree_asks {copy : Path} {target : Spot} :
    Asks host m ⟨.moveMount, some (.moveMount copy target)⟩ (Run.attachTree copy target) id := by
  unfold Run.attachTree
  cases hnul : target.path.nulPosition? with
  | some position =>
      exact ⟨some .invalid, [], m, rfl, .nil,
        .inr ⟨rfl, by simp [CallStep.hasNul, hnul], .invalid, rfl, rfl⟩⟩
  | none =>
      obtain ⟨answer, m', hresult, hmade⟩ := made_issue host m .moveMount
        (.moveMount copy target) rfl
      exact ⟨answer, _, m', hresult, hmade, .inl (.last rfl)⟩

theorem bindIdMapped_follows {source real : Path} (target : Spot) (recursive : Bool)
    (mapping : OwnerMapping) (set clear : MountAttrs)
    (hreal : ∀ place, m.tree.locate true source = .ok place → real = Path.ofNames place) :
    Follows host m (Run.bindIdMapped source target recursive mapping set clear)
      (attachSteps source target recursive mapping set clear real) := by
  refine createUserNamespace_follows.bind fun m₁ htree₁ => ?_
  refine .ask cloneTree_asks (fun answer m₂ hresult htree₂ hpassed => ?_)
    fun answer e hrefused _ => ?_
  · cases answer with
    | error e =>
        exact absurd hpassed (by simp [cloneRefusal, Attempt.passed_some, CallStep.tolerates])
    | ok copy =>
        obtain ⟨place, hplace, hcopy⟩ := cloneTree_ok hresult
        rw [htree₁] at hplace
        obtain rfl : copy = real := hcopy.trans (hreal place hplace).symm
        refine .demand setAttrOf_asks (fun _ => rfl) (fun m₃ _ => ?_) fun _ => ⟨_, rfl⟩
        exact .demand attachTree_asks (fun _ => rfl) (fun _ _ => .pure) fun _ => ⟨_, rfl⟩
  · cases answer with
    | ok copy => simp [cloneRefusal] at hrefused
    | error e' => exact ⟨_, rfl⟩

end Functions

/-! ## The protocol -/

/-- The path that a copy of the source's tree goes by; where the source leads
nowhere, any path will do. -/
theorem exists_real (tree : FileTree) (source : Path) :
    ∃ real, ∀ place, tree.locate true source = .ok place → real = Path.ofNames place := by
  cases tree.locate true source with
  | ok place => exact ⟨Path.ofNames place, fun _ h => by rw [Except.ok.inj h]⟩
  | error e => exact ⟨source, nofun⟩

theorem outcome_isOk_iff {outcome : Except Error Unit} : outcome.isOk = true ↔ outcome = .ok () := by
  cases outcome <;> simp [Except.isOk, Except.toBool]

/-- A call that was accepted is that of a step that has passed. -/
theorem mem_passedSteps {tried : List Attempt} {call : KernelCall}
    (h : ⟨call, none⟩ ∈ tried.filterMap Attempt.event?) :
    ∃ s ∈ passedSteps tried, s.call? = some call := by
  obtain ⟨a, ha, hevent⟩ := List.mem_filterMap.1 h
  obtain ⟨made, hmade, heq⟩ := Option.map_eq_some_iff.1 hevent
  obtain ⟨rfl, hanswer⟩ : made = call ∧ a.answer = none := by simpa using heq
  refine ⟨a.step, List.mem_map.2 ⟨a, List.mem_filter.2 ⟨ha, ?_⟩, rfl⟩, hmade⟩
  simp [Attempt.passed, hanswer]

/-- A step that has passed and tolerates nothing was accepted. -/
theorem accepted_of_mem_passedSteps {tried : List Attempt} {s : CallStep} {call : KernelCall}
    (h : s ∈ passedSteps tried) (hcall : s.call? = some call)
    (hstrict : ∀ e, s.tolerates e = false) : ⟨call, none⟩ ∈ tried.filterMap Attempt.event? := by
  obtain ⟨a, ha, rfl⟩ := List.mem_map.1 h
  obtain ⟨ha, hpassed⟩ := List.mem_filter.1 ha
  refine List.mem_filterMap.2 ⟨a, ha, ?_⟩
  have hanswer : a.answer = none := by
    cases hanswer : a.answer with
    | none => rfl
    | some e => simp [Attempt.passed, hanswer, hstrict] at hpassed
  simp [Attempt.event?, hcall, hanswer]

/-- A tree that was copied was found at the path. -/
theorem Made.place_of_openTree {host : Host} {m m' : Machine} {tried : List Attempt} {path : Path}
    {flags : AtFlags} (hmade : Made host m tried m')
    (h : ⟨.openTree, some (.openTree path flags)⟩ ∈ passedSteps tried) :
    ∃ place, m.tree.locate true path = .ok place := by
  obtain ⟨a, ha, hstep⟩ := List.mem_map.1 h
  obtain ⟨ha, hpassed⟩ := List.mem_filter.1 ha
  obtain ⟨before, after, hsplit⟩ := List.append_of_mem ha
  have hanswer := hmade.answers.at hsplit
  have hnone : a.answer = none := by
    cases hanswer : a.answer with
    | none => rfl
    | some e => simp [Attempt.passed, hanswer, hstep, CallStep.tolerates] at hpassed
  rw [hnone, hstep, answer_openTree] at hanswer
  cases hplace : m.tree.locate true path with
  | ok place => exact ⟨place, rfl⟩
  | error e =>
      unfold Run.treeAnswer at hanswer
      rw [hplace] at hanswer
      split at hanswer <;> simp [Except.map, cloneRefusal] at hanswer

theorem Proceeds.attached_iff {source real : Path} {target : Spot} {recursive : Bool}
    {mapping : OwnerMapping} {set clear : MountAttrs} {tried : List Attempt} {complete : Bool}
    (h : Proceeds (attachSteps source target recursive mapping set clear real) tried complete) :
    complete = true
      ↔ ∃ copy spot, ⟨.moveMount copy spot, none⟩ ∈ tried.filterMap Attempt.event? := by
  constructor
  · rintro rfl
    have hlast : (⟨.moveMount, some (.moveMount real target)⟩ : CallStep) ∈ passedSteps tried := by
      rw [h.all_passed]
      simp [attachSteps]
    exact ⟨real, target, accepted_of_mem_passedSteps hlast rfl fun _ => rfl⟩
  · rintro ⟨copy, spot, hmove⟩
    by_contra hstopped
    rw [Bool.not_eq_true] at hstopped
    subst hstopped
    obtain ⟨s, hs, hcall⟩ := mem_passedSteps hmove
    have hearlier := h.last_not_passed.subset hs
    simp only [attachSteps, userNamespaceSteps, List.cons_append, List.nil_append,
      List.dropLast_cons_cons, List.dropLast_singleton, List.mem_cons, List.not_mem_nil,
      or_false] at hearlier
    rcases hearlier with rfl | rfl | rfl | rfl | rfl | rfl | rfl | rfl <;> simp at hcall

/-- **An id-mapped bind attaches what is mapped, or nothing.** Whatever the
host refuses, there are attempts such that they are what happened; the
calls on record, without interrupted ones, are the first of six; each step
is attempted when just the steps before it have passed, and an interrupted
opening is made again at once; the mounts below are covered by both calls
or by neither; the bind succeeds just when a tree was attached; and it
fails only with the last attempt, or for a NUL byte in the next path. -/
theorem bindIdMapped_protocol (source : Path) (target : Spot) (recursive : Bool)
    (mapping : OwnerMapping) (set clear : MountAttrs) (host : Host) (m : Machine) :
    let run := (Run.bindIdMapped source target recursive mapping set clear).result host m
    ∃ real tried, (∀ place, m.tree.locate true source = .ok place → real = Path.ofNames place)
      ∧ Made host m tried run.2
      ∧ settledCalls tried <+: attachCalls source target recursive mapping set clear real
      ∧ (∀ before a after, tried = before ++ a :: after →
          ∃ rest, attachSteps source target recursive mapping set clear real
            = passedSteps before ++ a.step :: rest)
      ∧ (∀ before a after, tried = before ++ a :: after → a.interrupted = true →
          ∃ next rest, after = next :: rest ∧ next.step = a.step)
      ∧ (Run.cloneFlags recursive &&& AtFlags.recursive ≠ 0 ↔ recursive = true)
      ∧ (Run.copiedFlags recursive &&& AtFlags.recursive ≠ 0 ↔ recursive = true)
      ∧ (run.1 = .ok () ↔
          ∃ copy spot, ⟨.moveMount copy spot, none⟩ ∈ tried.filterMap Attempt.event?)
      ∧ (run.1 ≠ .ok () →
          (∃ a, tried.getLast? = some a ∧ a.passed = false ∧ a.interrupted = false)
          ∨ ∃ rest, attachSteps source target recursive mapping set clear real
              = passedSteps tried ++ rest ∧ ∃ s ∈ rest.head?, s.hasNul = true) := by
  intro run
  obtain ⟨real, hreal⟩ := exists_real m.tree source
  have hfollows : Follows host m _ _ :=
    bindIdMapped_follows target recursive mapping set clear hreal
  obtain ⟨tried, hmade, hproceeds⟩ := hfollows
  have hcalls := hproceeds.settledCalls_prefix
  rw [attachSteps_calls] at hcalls
  refine ⟨real, tried, hreal, hmade, hcalls, fun before a after heq => hproceeds.reached heq,
    fun before a after heq => hproceeds.made_again heq, ?_, ?_, ?_, fun hfailed => ?_⟩
  · cases recursive <;> decide
  · cases recursive <;> decide
  · exact outcome_isOk_iff.symm.trans hproceeds.attached_iff
  · have hstopped : run.1.isOk = false := by
      rw [← Bool.not_eq_true, outcome_isOk_iff]
      exact hfailed
    exact Proceeds.stops (hstopped ▸ hproceeds)

/-- On a host that interrupts the first opening of `uid_map`, the calls on
record are not the first of the six: the table is written twice. -/
theorem bindIdMapped_repeats_interrupted :
    let run := (Run.bindIdMapped ⟨[slash, 0x73]⟩ (.at ⟨[slash, 0x72]⟩) false
      ⟨Sample.rootOnly, Sample.rootOnly⟩ 0 0).result
        (Sample.refusing .uidMap .interrupted) { tree := Sample.sourced }
    run.1 = .ok ()
      ∧ ∀ real, ¬ run.2.events.map (·.call) <+: attachCalls ⟨[slash, 0x73]⟩ (.at ⟨[slash, 0x72]⟩)
        false ⟨Sample.rootOnly, Sample.rootOnly⟩ 0 0 real := by
  intro run
  have hcalls : run.2.events.map (·.call) = .write .uidMap "0 0 1\n" :: .write .uidMap "0 0 1\n"
      :: (run.2.events.map (·.call)).drop 2 := by
    decide +kernel
  refine ⟨by decide +kernel, fun real hprefix => ?_⟩
  rw [hcalls] at hprefix
  simp [attachCalls, List.cons_prefix_cons] at hprefix

end ContainerMounts
