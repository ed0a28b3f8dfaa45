/-
ContainerMounts.Proofs.MappingProbe — what a probe for id mappings finds out.

A probe goes the way of an id-mapped bind up to the attachment, and takes the
first step that fails as its answer. That answer is worth something only if
a step of the helper process, which says nothing about the kernel's id
mappings, never passes for one that does, and if the probe and the bind,
which are written apart, are after the same steps.

The steps are judged here by what the host replies to them, before anything
is run: `CallStep.Replied` is the reply that a step gets in the end, an
opening that is interrupted being made again; `CallStep.Succeeds` and
`FailsFirst` say how a list of steps turns out.

Main statement: the answer of `Run.probeIdMapping` is read off these replies,
and where it is `supported`, the same replies let an id-mapped bind get as
far as its attachment (`probeIdMapping_conclusive`). An interrupted opening
is no failed step (`probeIdMapping_outlasts_interruption`).
-/
import ContainerMounts.Proofs.AttachProtocol

namespace ContainerMounts

/-! ## What the host replies to a step -/

namespace CallStep

/-- The reply that the step gets in the end, with so many calls of its kind
before it. A path with a NUL byte is refused before the host is asked. -/
inductive Replied (s : CallStep) (host : Host) (tree : FileTree) : Nat → Option Errno → Prop where
  | withheld {index : Nat} (h : s.hasNul = true) : Replied s host tree index (some .invalid)
  | last {index : Nat} {answer : Option Errno} (hnul : s.hasNul = false)
      (h : s.answer host tree index = answer)
      (hfinal : (⟨s, answer⟩ : Attempt).interrupted = false) : Replied s host tree index answer
  | again {index : Nat} {answer : Option Errno} (hnul : s.hasNul = false)
      (h : (⟨s, s.answer host tree index⟩ : Attempt).interrupted = true)
      (hrest : Replied s host tree (index + 1) answer) : Replied s host tree index answer

/-- The step gets done, these calls having been made before. -/
def Succeeds (s : CallStep) (host : Host) (tree : FileTree) (earlier : List CallKind) : Prop :=
  ∃ answer, s.Replied host tree (earlier.count s.kind) answer
    ∧ (⟨s, answer⟩ : Attempt).passed = true

/-- The step fails with this number, these calls having been made before. -/
def Fails (s : CallStep) (host : Host) (tree : FileTree) (earlier : List CallKind) (e : Errno) :
    Prop :=
  s.Replied host tree (earlier.count s.kind) (some e) ∧ s.tolerates e = false

section Replies

variable {s t : CallStep} {host : Host} {tree : FileTree} {earlier more : List CallKind}
  {index : Nat} {answer answer' : Option Errno} {e e' : Errno}

theorem Replied.unique (h : s.Replied host tree index answer)
    (h' : s.Replied host tree index answer') : answer = answer' := by
  induction h with
  | withheld h =>
      cases h' with
      | withheld h' => rfl
      | last hnul h' hfinal => simp [h] at hnul
      | again hnul h' hrest => simp [h] at hnul
  | last hnul h hfinal =>
      cases h' with
      | withheld h' => simp [h'] at hnul
      | last hnul' h' hfinal' => exact h.symm.trans h'
      | again hnul' h' hrest =>
          rw [h, hfinal] at h'
          simp at h'
  | again hnul h hrest ih =>
      cases h' with
      | withheld h' => simp [h'] at hnul
      | last hnul' h' hfinal' =>
          rw [h', hfinal'] at h
          simp at h
      | again hnul' h' hrest' => exact ih hrest'

theorem Fails.not_succeeds (h : s.Fails host tree earlier e) :
    ¬ s.Succeeds host tree earlier := by
  rintro ⟨answer, hreplied, hpassed⟩
  rw [← h.1.unique hreplied, Attempt.passed_some, h.2] at hpassed
  exact absurd hpassed (by decide)

theorem Fails.unique (h : s.Fails host tree earlier e) (h' : s.Fails host tree earlier e') :
    e = e' :=
  Option.some.inj (h.1.unique h'.1)

/-- The reply depends on nothing of the step but what the host is asked. -/
theorem Replied.congr (h : s.Replied host tree index answer) (hkind : s.kind = t.kind)
    (hnul : s.hasNul = t.hasNul) (hfault : s.fault? tree = t.fault? tree) :
    t.Replied host tree index answer := by
  have hanswer : ∀ index, s.answer host tree index = t.answer host tree index := by
    intro index
    rw [CallStep.answer, CallStep.answer, hkind, hfault]
  have hagain : ∀ answer,
      (⟨s, answer⟩ : Attempt).interrupted = (⟨t, answer⟩ : Attempt).interrupted := by
    intro answer
    rw [Attempt.interrupted, Attempt.interrupted, opensFile, opensFile, hkind]
  induction h with
  | withheld h => exact .withheld (hnul ▸ h)
  | last hnone h hfinal => exact .last (hnul ▸ hnone) (hanswer _ ▸ h) (hagain _ ▸ hfinal)
  | again hnone h hrest ih => exact .again (hnul ▸ hnone) (by rw [← hagain, ← hanswer]; exact h) ih

theorem Succeeds.congr (h : s.Succeeds host tree earlier) (hkind : s.kind = t.kind)
    (hnul : s.hasNul = t.hasNul) (hfault : s.fault? tree = t.fault? tree) :
    t.Succeeds host tree earlier := by
  obtain ⟨answer, hreplied, hpassed⟩ := h
  refine ⟨answer, hkind ▸ hreplied.congr hkind hnul hfault, ?_⟩
  cases answer with
  | none => rfl
  | some e => rwa [Attempt.passed_some, tolerates, ← hkind]

/-- Calls of other kinds do not matter. -/
theorem succeeds_append (h : s.kind ∉ more) :
    s.Succeeds host tree (earlier ++ more) ↔ s.Succeeds host tree earlier := by
  rw [Succeeds, Succeeds, List.count_append, List.count_eq_zero_of_not_mem h, Nat.add_zero]

theorem fails_append (h : s.kind ∉ more) :
    s.Fails host tree (earlier ++ more) e ↔ s.Fails host tree earlier e := by
  rw [Fails, Fails, List.count_append, List.count_eq_zero_of_not_mem h, Nat.add_zero]

end Replies

end CallStep

section Steps

variable {host : Host} {m m' : Machine} {tree : FileTree} {earlier more : List CallKind}
  {s t : CallStep} {steps xs ys : List CallStep} {tried : List Attempt} {answer : Option Errno}
  {e e' : Errno}

/-- What was tried of a step ends with the reply to it. -/
theorem Insists.replied (h : Insists s tried answer) (hnul : s.hasNul = false)
    (hanswers : host.Answers tree earlier tried) :
    s.Replied host tree (earlier.count s.kind) answer := by
  induction h generalizing earlier with
  | last h => exact .last hnul hanswers.1.symm h
  | again hfile h ih =>
      refine .again hnul ?_ ?_
      · have hanswer : some Errno.interrupted = s.answer host tree (earlier.count s.kind) :=
          hanswers.1
        simp [← hanswer, Attempt.interrupted, hfile]
      · have hrest := ih hanswers.2
        rwa [List.count_append, List.count_singleton_self] at hrest

/-! ## How a list of steps turns out -/

/-- The first of the steps that fails is `s`, with the number `e`. -/
inductive FailsFirst (host : Host) (tree : FileTree) (earlier : List CallKind) (s : CallStep)
    (e : Errno) : List CallStep → Prop where
  | here {rest : List CallStep} (h : s.Fails host tree earlier e) :
      FailsFirst host tree earlier s e (s :: rest)
  | later {t : CallStep} {rest : List CallStep} (h : t.Succeeds host tree earlier)
      (hrest : FailsFirst host tree earlier s e rest) : FailsFirst host tree earlier s e (t :: rest)

namespace FailsFirst

theorem mem (h : FailsFirst host tree earlier s e steps) : s ∈ steps := by
  induction h with
  | here h => exact List.mem_cons_self
  | later h hrest ih => exact List.mem_cons_of_mem _ ih

theorem append (h : FailsFirst host tree earlier s e xs) :
    FailsFirst host tree earlier s e (xs ++ ys) := by
  induction h with
  | here h => exact .here h
  | later h hrest ih => exact .later h ih

theorem behind (hxs : ∀ t ∈ xs, t.Succeeds host tree earlier)
    (h : FailsFirst host tree earlier s e ys) : FailsFirst host tree earlier s e (xs ++ ys) := by
  induction xs with
  | nil => exact h
  | cons t xs ih =>
      obtain ⟨ht, hxs⟩ := List.forall_mem_cons.1 hxs
      exact .later ht (ih hxs)

theorem not_all (h : FailsFirst host tree earlier s e steps) :
    ¬ ∀ t ∈ steps, t.Succeeds host tree earlier := by
  intro hall
  induction h with
  | here h => exact h.not_succeeds (hall _ List.mem_cons_self)
  | later h hrest ih => exact ih fun t ht => hall t (List.mem_cons_of_mem _ ht)

theorem unique (h : FailsFirst host tree earlier s e steps)
    (h' : FailsFirst host tree earlier t e' steps) : s = t ∧ e = e' := by
  induction h with
  | here h =>
      cases h' with
      | here h' => exact ⟨rfl, h.unique h'⟩
      | later h' hrest' => exact absurd h' h.not_succeeds
  | later h hrest ih =>
      cases h' with
      | here h' => exact absurd h h'.not_succeeds
      | later h' hrest' => exact ih hrest'

/-- Calls of other kinds do not matter. -/
theorem of_append (hkinds : ∀ t ∈ steps, t.kind ∉ more)
    (h : FailsFirst host tree (earlier ++ more) s e steps) :
    FailsFirst host tree earlier s e steps := by
  induction h with
  | here h => exact .here ((CallStep.fails_append (hkinds _ List.mem_cons_self)).1 h)
  | later h hrest ih =>
      obtain ⟨ht, hkinds⟩ := List.forall_mem_cons.1 hkinds
      exact .later ((CallStep.succeeds_append ht).1 h) (ih hkinds)

end FailsFirst

/-- Nothing but the step is tried of it, and nothing at all if its path has a
NUL byte. -/
theorem step_eq_of_tried (h : Insists s tried answer ∨ tried = [] ∧ s.hasNul = true) :
    ∀ a ∈ tried, a.step = s := by
  rcases h with hinsists | ⟨rfl, -⟩
  · exact hinsists.step_eq
  · simp

/-- The kinds that were tried of a step are its own. -/
theorem kind_notMem_of_step_eq (htried : ∀ a ∈ tried, a.step = s) (hne : t.kind ≠ s.kind) :
    t.kind ∉ tried.map (·.step.kind) := by
  intro hmem
  obtain ⟨a, ha, hkind⟩ := List.mem_map.1 hmem
  rw [htried a ha] at hkind
  exact hne hkind.symm

/-- Steps of different kinds turn out as the host's replies have it. -/
theorem Proceeds.turns_out {complete : Bool} (h : Proceeds steps tried complete)
    (hkinds : (steps.map (·.kind)).Nodup) (hnul : ∀ s ∈ steps, s.hasNul = false)
    (hanswers : host.Answers tree earlier tried) :
    (complete = true ∧ ∀ s ∈ steps, s.Succeeds host tree earlier)
      ∨ complete = false ∧ ∃ s e, FailsFirst host tree earlier s e steps := by
  induction steps generalizing tried earlier with
  | nil =>
      cases h
      exact .inl ⟨rfl, by simp⟩
  | cons s steps ih =>
      obtain ⟨hother, hkinds⟩ := List.nodup_cons.1 hkinds
      obtain ⟨hs, hnul⟩ := List.forall_mem_cons.1 hnul
      rcases h.of_cons with ⟨h, -⟩ | ⟨e, hinsists, htolerates, hstopped⟩
          | ⟨first, rest, answer, rfl, hinsists, hpassed, hrest⟩
      · simp [h] at hs
      · exact .inr ⟨hstopped, s, e, .here ⟨hinsists.replied hs hanswers, htolerates⟩⟩
      · obtain ⟨hfirst, hbehind⟩ := hanswers.of_append
        have hsucceeds : s.Succeeds host tree earlier :=
          ⟨answer, hinsists.replied hs hfirst, hpassed⟩
        have hapart : ∀ t ∈ steps, t.kind ∉ first.map (·.step.kind) := fun t ht =>
          kind_notMem_of_step_eq hinsists.step_eq fun heq => hother (List.mem_map.2 ⟨t, ht, heq⟩)
        rcases ih hrest hkinds hnul hbehind with ⟨hcomplete, hall⟩ | ⟨hstopped, t, e, hfails⟩
        · refine .inl ⟨hcomplete, List.forall_mem_cons.2 ⟨hsucceeds, fun t ht => ?_⟩⟩
          exact (CallStep.succeeds_append (hapart t ht)).1 (hall t ht)
        · exact .inr ⟨hstopped, t, e, .later hsucceeds (hfails.of_append hapart)⟩

end Steps

/-! ## Learning a reply -/

/-- The action makes the step until the host has replied to it, and returns a
value with that reply in it. -/
def Learns {β : Type} (host : Host) (m : Machine) (s : CallStep) (act : Run β)
    (refusal : β → Option Errno) : Prop :=
  ∃ value tried m', act.result host m = (.ok value, m') ∧ Made host m tried m'
    ∧ (Insists s tried (refusal value) ∨ tried = [] ∧ s.hasNul = true)
    ∧ s.Replied host m.tree (m.attempts.count s.kind) (refusal value)

section Learning

variable {host : Host} {m : Machine} {s : CallStep}

theorem Asks.learns {β : Type} {act : Run β} {refusal : β → Option Errno}
    (h : Asks host m s act refusal) (hnul : s.hasNul = false) : Learns host m s act refusal := by
  obtain ⟨value, tried, m', hresult, hmade, hinsists | ⟨-, hwithheld, -⟩⟩ := h
  · exact ⟨value, tried, m', hresult, hmade, .inl hinsists, hinsists.replied hnul hmade.answers⟩
  · simp [hnul] at hwithheld

/-- The step that copies the tree at a path, for one mount. -/
def copyStep (path : Path) : CallStep :=
  ⟨.openTree, some (.openTree path (Run.cloneFlags false))⟩

theorem cloneTree_learns {path : Path} :
    Learns host m (copyStep path) (Run.cloneTree path false) cloneRefusal := by
  cases hnul : path.nulPosition? with
  | none => exact cloneTree_asks.learns (by simp [CallStep.hasNul, hnul])
  | some position =>
      have hwithheld : (copyStep path).hasNul = true := by simp [copyStep, CallStep.hasNul, hnul]
      refine ⟨.error .invalid, [], m, ?_, .nil, .inr ⟨rfl, hwithheld⟩, .withheld hwithheld⟩
      unfold Run.cloneTree
      rw [hnul]
      rfl

/-- The step that gives a copied tree a user namespace. -/
def mapStep (real : Path) : CallStep :=
  ⟨.mountSetattr, some (.setAttrOf real (Run.copiedFlags false) (Run.idmapChange 0 0))⟩

theorem mapTree_learns {real : Path} :
    Learns host m (mapStep real) (Run.setAttrOf real false (Run.idmapChange 0 0)) id :=
  setAttrOf_asks.learns rfl

/-- The step that attaches a copied tree. -/
def moveStep (real : Path) (target : Spot) : CallStep := ⟨.moveMount, some (.moveMount real target)⟩

theorem attachTree_learns {real : Path} {target : Spot} :
    Learns host m (moveStep real target) (Run.attachTree real target) id := by
  cases hnul : target.path.nulPosition? with
  | none => exact attachTree_asks.learns (by simp [CallStep.hasNul, hnul])
  | some position =>
      have hwithheld : (moveStep real target).hasNul = true := by
        simp [moveStep, CallStep.hasNul, hnul]
      refine ⟨some .invalid, [], m, ?_, .nil, .inr ⟨rfl, hwithheld⟩, .withheld hwithheld⟩
      unfold Run.attachTree
      rw [hnul]
      rfl

end Learning

/-! ## The probe -/

/-- The tables of a probe. -/
def probeTables : OwnerMapping := ⟨IdMapSupport.probeTable, IdMapSupport.probeTable⟩

/-- The steps of a probe, the copy's root being at a real path. -/
def probeSteps (path real : Path) : List CallStep :=
  ⟨.capget, none⟩ :: (userNamespaceSteps probeTables ++ [copyStep path, mapStep real])

/-- The failed step tells of the kernel: it is one that only a kernel without
id mappings refuses with this number. -/
def CallStep.Tells (s : CallStep) (e : Errno) : Prop :=
  (s.kind = .openTree ∨ s.kind = .mountSetattr)
    ∧ (e = .notImplemented ∨ e = .invalid ∨ e = .notSupported ∨ e = .perm)

/-- What a probe makes of its steps. -/
inductive Verdict (host : Host) (tree : FileTree) (earlier : List CallKind)
    (steps : List CallStep) : IdMapSupport → Prop where
  | supported (h : ∀ s ∈ steps, s.Succeeds host tree earlier) :
      Verdict host tree earlier steps .supported
  | unsupported {s : CallStep} {e : Errno} (h : FailsFirst host tree earlier s e steps)
      (tells : s.Tells e) : Verdict host tree earlier steps .unsupported
  | indeterminate {s : CallStep} {e : Errno} (h : FailsFirst host tree earlier s e steps)
      (silent : ¬ s.Tells e) : Verdict host tree earlier steps .indeterminate

/-- The action ends with the verdict on the steps, and makes no others. -/
def Judges (host : Host) (m : Machine) (act : Run IdMapSupport) (steps : List CallStep) : Prop :=
  ∃ support tried m', act.result host m = (.ok support, m') ∧ Made host m tried m'
    ∧ (∀ a ∈ tried, a.step ∈ steps) ∧ Verdict host m.tree m.attempts steps support

section Judging

variable {host : Host} {m m' : Machine} {tree : FileTree} {earlier : List CallKind}
  {s : CallStep} {steps xs ys : List CallStep} {tried : List Attempt} {support : IdMapSupport}
  {e : Errno}

/-- The first steps succeed, and have nothing to do with the rest. -/
theorem Verdict.behind {more : List CallKind} (hxs : ∀ t ∈ xs, t.Succeeds host tree earlier)
    (hkinds : ∀ t ∈ ys, t.kind ∉ more) (h : Verdict host tree (earlier ++ more) ys support) :
    Verdict host tree earlier (xs ++ ys) support := by
  cases h with
  | supported h =>
      refine .supported (List.forall_mem_append.2 ⟨hxs, fun t ht => ?_⟩)
      exact (CallStep.succeeds_append (hkinds t ht)).1 (h t ht)
  | unsupported h tells => exact .unsupported (.behind hxs (h.of_append hkinds)) tells
  | indeterminate h silent => exact .indeterminate (.behind hxs (h.of_append hkinds)) silent

theorem probeSteps_attach_nothing {path real : Path} (hs : s ∈ probeSteps path real) :
    s.kind ≠ .mount ∧ s.kind ≠ .moveMount := by
  simp only [probeSteps, userNamespaceSteps, copyStep, mapStep, List.cons_append, List.nil_append,
    List.mem_cons, List.not_mem_nil, or_false] at hs
  rcases hs with rfl | rfl | rfl | rfl | rfl | rfl | rfl | rfl | rfl <;> simp

/-- What the probe says to a step that fails. -/
def CallStep.verdict (s : CallStep) (e : Errno) : IdMapSupport :=
  if s.kind = .openTree ∨ s.kind = .mountSetattr then .ofRefusal e else .indeterminate

theorem Verdict.failed (h : FailsFirst host tree earlier s e steps) :
    Verdict host tree earlier steps (s.verdict e) := by
  unfold CallStep.verdict IdMapSupport.ofRefusal
  split
  · rename_i hkind
    split
    · rename_i hnumber
      exact .unsupported h ⟨hkind, hnumber⟩
    · rename_i hnumber
      exact .indeterminate h fun tells => hnumber tells.2
  · rename_i hkind
    exact .indeterminate h fun tells => hkind tells.1

theorem Verdict.supported_iff (h : Verdict host tree earlier steps support) :
    support = .supported ↔ ∀ s ∈ steps, s.Succeeds host tree earlier := by
  cases h with
  | supported h => exact ⟨fun _ => h, fun _ => rfl⟩
  | unsupported h tells => exact ⟨nofun, fun hall => absurd hall h.not_all⟩
  | indeterminate h silent => exact ⟨nofun, fun hall => absurd hall h.not_all⟩

theorem Verdict.unsupported_iff (h : Verdict host tree earlier steps support) :
    support = .unsupported ↔ ∃ s e, FailsFirst host tree earlier s e steps ∧ s.Tells e := by
  cases h with
  | supported h => exact ⟨nofun, fun ⟨s, e, hfails, _⟩ => absurd h hfails.not_all⟩
  | unsupported h tells => exact ⟨fun _ => ⟨_, _, h, tells⟩, fun _ => rfl⟩
  | indeterminate h silent =>
      refine ⟨nofun, fun ⟨s, e, hfails, tells⟩ => ?_⟩
      obtain ⟨rfl, rfl⟩ := h.unique hfails
      exact absurd tells silent

theorem Verdict.indeterminate_iff (h : Verdict host tree earlier steps support) :
    support = .indeterminate ↔ ∃ s e, FailsFirst host tree earlier s e steps ∧ ¬ s.Tells e := by
  cases h with
  | supported h => exact ⟨nofun, fun ⟨s, e, hfails, _⟩ => absurd h hfails.not_all⟩
  | unsupported h tells =>
      refine ⟨nofun, fun ⟨s, e, hfails, silent⟩ => ?_⟩
      obtain ⟨rfl, rfl⟩ := h.unique hfails
      exact absurd tells silent
  | indeterminate h silent => exact ⟨fun _ => ⟨_, _, h, silent⟩, fun _ => rfl⟩

theorem Judges.supported : Judges host m (pure .supported) [] :=
  ⟨_, [], m, rfl, .nil, by simp, .supported (by simp)⟩

/-- A step, and what is made of the reply to it. -/
theorem Judges.learn {β : Type} {act : Run β} {refusal : β → Option Errno}
    {f : β → Run IdMapSupport} (h : Learns host m s act refusal)
    (hother : ∀ t ∈ steps, t.kind ≠ s.kind)
    (hpassed : ∀ value m', act.result host m = (.ok value, m') → m'.tree = m.tree →
      (⟨s, refusal value⟩ : Attempt).passed = true → Judges host m' (f value) steps)
    (hfailed : ∀ value e, refusal value = some e → s.tolerates e = false →
      f value = pure (s.verdict e)) :
    Judges host m (act >>= f) (s :: steps) := by
  obtain ⟨value, tried, m', hresult, hmade, hinsists, hreplied⟩ := h
  have hsteps := step_eq_of_tried hinsists
  rw [Judges, Run.result_bind, hresult]
  dsimp only
  have hhere : ∀ a ∈ tried, a.step ∈ s :: steps := fun a ha => by simp [hsteps a ha]
  cases hanswer : (⟨s, refusal value⟩ : Attempt).passed with
  | true =>
      obtain ⟨support, more, m'', hresult', hmade', hmem, hverdict⟩ :=
        hpassed value m' hresult hmade.tree hanswer
      refine ⟨support, tried ++ more, m'', hresult', hmade.append hmade',
        List.forall_mem_append.2 ⟨hhere, fun a ha => List.mem_cons_of_mem _ (hmem a ha)⟩, ?_⟩
      rw [hmade.tree, hmade.kinds] at hverdict
      have hhead : ∀ t ∈ [s], t.Succeeds host m.tree m.attempts :=
        List.forall_mem_singleton.2 ⟨_, hreplied, hanswer⟩
      exact .behind hhead (fun t ht => kind_notMem_of_step_eq hsteps (hother t ht)) hverdict
  | false =>
      cases hrefused : refusal value with
      | none => simp [hrefused, Attempt.passed_none] at hanswer
      | some e =>
          rw [hrefused, Attempt.passed_some] at hanswer
          rw [hfailed value e hrefused hanswer, Run.result_pure]
          exact ⟨_, tried, m', rfl, hmade, hhere, .failed (.here ⟨hrefused ▸ hreplied, hanswer⟩)⟩

theorem userNamespaceSteps_kinds (mapping : OwnerMapping) :
    (userNamespaceSteps mapping).map (·.kind)
      = [.fork, .helperUnshare, .uidMap, .setgroups, .gidMap, .userNamespace] := rfl

theorem userNamespaceSteps_hasNul (mapping : OwnerMapping) :
    ∀ s ∈ userNamespaceSteps mapping, s.hasNul = false := by
  simp [userNamespaceSteps, CallStep.hasNul]

/-- The user namespace comes about just when the host agrees to its steps. -/
theorem createUserNamespace_turns_out (host : Host) (m : Machine) (mapping : OwnerMapping) :
    ∃ tried, Made host m tried ((Run.createUserNamespace mapping).result host m).2
      ∧ (∀ a ∈ tried, a.step ∈ userNamespaceSteps mapping)
      ∧ (((Run.createUserNamespace mapping).result host m).1.isOk = true
          ∧ (∀ s ∈ userNamespaceSteps mapping, s.Succeeds host m.tree m.attempts)
        ∨ ((Run.createUserNamespace mapping).result host m).1.isOk = false
          ∧ ∃ s e, FailsFirst host m.tree m.attempts s e (userNamespaceSteps mapping)) := by
  have hfollows : Follows host m (Run.createUserNamespace mapping) (userNamespaceSteps mapping) :=
    createUserNamespace_follows
  obtain ⟨tried, hmade, hproceeds⟩ := hfollows
  refine ⟨tried, hmade, fun a ha => ?_, hproceeds.turns_out ?_ (userNamespaceSteps_hasNul mapping)
    hmade.answers⟩
  · obtain ⟨before, after, hsplit⟩ := List.append_of_mem ha
    obtain ⟨rest, hsteps⟩ := hproceeds.reached hsplit
    rw [hsteps]
    simp
  · rw [userNamespaceSteps_kinds]
    decide

theorem result_tryUserNamespace (host : Host) (m : Machine) :
    Run.tryUserNamespace.result host m
      = (.ok ((Run.createUserNamespace probeTables).result host m).1.isOk,
          ((Run.createUserNamespace probeTables).result host m).2) := by
  unfold Run.tryUserNamespace probeTables
  generalize Run.createUserNamespace ⟨IdMapSupport.probeTable, IdMapSupport.probeTable⟩ = act
  unfold Run.result ReaderT.run ExceptT.run StateT.run
  simp only [bind, ReaderT.bind, ExceptT.bind, ExceptT.mk, StateT.bind, tryCatch, tryCatchThe,
    MonadExceptOf.tryCatch, ExceptT.tryCatch]
  cases act host m with
  | mk outcome m' => cases outcome <;> rfl

theorem not_tells_of_userNamespace {mapping : OwnerMapping} (hs : s ∈ userNamespaceSteps mapping) :
    ¬ s.Tells e := by
  rintro ⟨hkind, -⟩
  have hmem := List.mem_map_of_mem (f := (·.kind)) hs
  rw [userNamespaceSteps_kinds] at hmem
  rcases hkind with hkind | hkind <;> simp [hkind] at hmem

/-- The helper process says nothing about the kernel. -/
theorem Judges.userNamespace {f : Bool → Run IdMapSupport}
    (hother : ∀ t ∈ steps, t.kind ∉ (userNamespaceSteps probeTables).map (·.kind))
    (hnext : ∀ m', m'.tree = m.tree → Judges host m' (f true) steps)
    (hnone : f false = pure .indeterminate) :
    Judges host m (Run.tryUserNamespace >>= f) (userNamespaceSteps probeTables ++ steps) := by
  obtain ⟨tried, hmade, hsteps, hcases⟩ := createUserNamespace_turns_out host m probeTables
  rw [Judges, Run.result_bind, result_tryUserNamespace]
  dsimp only
  have hhere : ∀ a ∈ tried, a.step ∈ userNamespaceSteps probeTables ++ steps := fun a ha =>
    List.mem_append_left _ (hsteps a ha)
  rcases hcases with ⟨hok, hall⟩ | ⟨hno, s, e, hfails⟩
  · rw [hok]
    obtain ⟨support, more, m'', hresult, hmade', hmem, hverdict⟩ := hnext _ hmade.tree
    refine ⟨support, tried ++ more, m'', hresult, hmade.append hmade',
      List.forall_mem_append.2 ⟨hhere, fun a ha => List.mem_append_right _ (hmem a ha)⟩, ?_⟩
    rw [hmade.tree, hmade.kinds] at hverdict
    refine hverdict.behind hall fun t ht hkind => hother t ht ?_
    obtain ⟨a, ha, heq⟩ := List.mem_map.1 hkind
    exact List.mem_map.2 ⟨a.step, hsteps a ha, heq⟩
  · rw [hno, hnone, Run.result_pure]
    exact ⟨_, tried, _, rfl, hmade, hhere,
      .indeterminate hfails.append (not_tells_of_userNamespace hfails.mem)⟩

theorem Judges.mayAdminister {f : Bool → Run IdMapSupport} (hadmin : host.admin = true)
    (hother : ∀ t ∈ steps, t.kind ≠ .capget)
    (hnext : ∀ m', m'.tree = m.tree → Judges host m' (f true) steps)
    (hnone : f false = pure .indeterminate) :
    Judges host m (Run.mayAdminister >>= f) (⟨.capget, none⟩ :: steps) := by
  unfold Run.mayAdminister
  rw [bind_assoc]
  refine .learn ((attempt_asks rfl).learns rfl) hother (fun refusal m' _ htree hpassed => ?_)
    fun refusal e hrefused _ => ?_
  · cases refusal with
    | some e => simp [Attempt.passed_some, CallStep.tolerates] at hpassed
    | none =>
        rw [Judges, Run.result_bind, Run.result_bind, Run.result_read]
        dsimp only
        rw [Run.result_pure, hadmin]
        exact hnext m' htree
  · obtain rfl : refusal = some e := hrefused
    exact (pure_bind false f).trans hnone

/-- A process that may administer the system goes by the steps of the probe. -/
theorem probeIdMapping_judges {path real : Path} (hadmin : host.admin = true)
    (hreal : ∀ place, m.tree.locate true path = .ok place → real = Path.ofNames place) :
    Judges host m (Run.probeIdMapping path) (probeSteps path real) := by
  unfold Run.probeIdMapping
  refine .mayAdminister hadmin (by simp [userNamespaceSteps, copyStep, mapStep])
    (fun m₁ htree₁ => ?_) rfl
  refine .userNamespace (by simp [userNamespaceSteps, copyStep, mapStep])
    (fun m₂ htree₂ => ?_) rfl
  refine .learn cloneTree_learns (by simp [copyStep, mapStep])
    (fun answer m₃ hresult htree₃ hpassed => ?_) fun answer e hrefused _ => ?_
  · cases answer with
    | error e =>
        simp [cloneRefusal, Attempt.passed_some, CallStep.tolerates, copyStep] at hpassed
    | ok copy =>
        obtain ⟨place, hplace, hcopy⟩ := cloneTree_ok hresult
        rw [htree₂, htree₁] at hplace
        obtain rfl : copy = real := hcopy.trans (hreal place hplace).symm
        refine .learn mapTree_learns (by simp) (fun refusal m₄ _ _ hpassed => ?_)
          fun refusal e hrefused _ => ?_
        · cases refusal with
          | none => exact .supported
          | some e => simp [Attempt.passed_some, CallStep.tolerates, mapStep] at hpassed
        · obtain rfl : refusal = some e := hrefused
          rfl
  · cases answer with
    | ok copy => simp [cloneRefusal] at hrefused
    | error e' =>
        obtain rfl : e' = e := by simpa [cloneRefusal] using hrefused
        rfl

/-- A process that may not administer the system asks for nothing else. -/
theorem probeIdMapping_denied (path : Path) (hadmin : host.admin = false) :
    ∃ tried m', (Run.probeIdMapping path).result host m = (.ok .indeterminate, m')
      ∧ Made host m tried m' ∧ ∀ a ∈ tried, a.step = ⟨.capget, none⟩ := by
  obtain ⟨answer, m', hresult, hmade⟩ := made_attempt host m .capget
  refine ⟨_, m', ?_, hmade, by simp⟩
  unfold Run.probeIdMapping Run.mayAdminister
  rw [Run.result_bind, Run.result_bind, hresult]
  cases answer with
  | some e => rfl
  | none =>
      dsimp only
      rw [Run.result_bind, Run.result_read]
      dsimp only
      rw [Run.result_pure, hadmin]
      rfl

end Judging

/-! ## The bind that was probed for -/

section Bind

variable {host : Host} {m : Machine} {tree : FileTree} {earlier : List CallKind}

/-- The tables do not matter for whether a user namespace comes about. -/
theorem succeeds_userNamespaceSteps {mapping mapping' : OwnerMapping}
    (h : ∀ s ∈ userNamespaceSteps mapping, s.Succeeds host tree earlier) :
    ∀ s ∈ userNamespaceSteps mapping', s.Succeeds host tree earlier := by
  simp only [userNamespaceSteps, List.forall_mem_cons] at h ⊢
  obtain ⟨hfork, hunshare, huid, hgroups, hgid, hopen, -⟩ := h
  exact ⟨hfork, hunshare, huid.congr rfl rfl rfl, hgroups, hgid.congr rfl rfl rfl, hopen, by simp⟩

/-- How the attachment of a copy ends. -/
def attachOutcome (target : Spot) : Option Errno → Except Error Unit
  | none => .ok ()
  | some e => .error (.mount "move_mount" target.path (.os e))

/-- The action gets as far as the attachment of a copy, and ends as the host
replies to that. The call is on record, unless the target's path has a NUL
byte. -/
def ReachesAttachment (host : Host) (m : Machine) (real : Path) (target : Spot)
    (act : Run Unit) : Prop :=
  ∃ reply, (moveStep real target).Replied host m.tree (m.attempts.count .moveMount) reply
    ∧ (act.result host m).1 = attachOutcome target reply
    ∧ (target.path.nulPosition? = none → ∃ before,
        (act.result host m).2.log = before ++ [⟨m.tree, ⟨.moveMount real target, reply⟩⟩])

variable {m' : Machine} {tried : List Attempt} {s : CallStep} {path real : Path} {target : Spot}

/-- Attempts of other kinds leave the replies to a step as they are. -/
theorem Made.count_eq {kind : CallKind} (hmade : Made host m tried m')
    (hother : ∀ a ∈ tried, a.step.kind ≠ kind) :
    m'.attempts.count kind = m.attempts.count kind := by
  rw [hmade.kinds, List.count_append, Nat.add_eq_left, List.count_eq_zero]
  intro hmem
  obtain ⟨a, ha, hkind⟩ := List.mem_map.1 hmem
  exact hother a ha hkind

theorem Made.succeeds (hmade : Made host m tried m') (hother : ∀ a ∈ tried, a.step.kind ≠ s.kind)
    (h : s.Succeeds host m.tree m.attempts) : s.Succeeds host m'.tree m'.attempts := by
  rwa [CallStep.Succeeds, hmade.tree, hmade.count_eq hother]

/-- What comes before the attachment succeeds and attaches nothing. -/
theorem ReachesAttachment.behind {β : Type} {act : Run β} {f : β → Run Unit} {value : β}
    (hresult : act.result host m = (.ok value, m')) (hmade : Made host m tried m')
    (hother : ∀ a ∈ tried, a.step.kind ≠ .moveMount)
    (h : ReachesAttachment host m' real target (f value)) :
    ReachesAttachment host m real target (act >>= f) := by
  rwa [ReachesAttachment, Run.result_bind, hresult, ← hmade.tree, ← hmade.count_eq hother]

/-- A step that succeeds, and what is done with the answer to it. -/
theorem ReachesAttachment.learn {β : Type} {act : Run β} {refusal : β → Option Errno}
    {f : β → Run Unit} (h : Learns host m s act refusal)
    (hsucceeds : s.Succeeds host m.tree m.attempts) (hother : s.kind ≠ .moveMount)
    (hnext : ∀ value tried m', act.result host m = (.ok value, m') → Made host m tried m' →
      (∀ a ∈ tried, a.step = s) → (⟨s, refusal value⟩ : Attempt).passed = true →
      ReachesAttachment host m' real target (f value)) :
    ReachesAttachment host m real target (act >>= f) := by
  obtain ⟨value, tried, m', hresult, hmade, hinsists, hreplied⟩ := h
  obtain ⟨answer, hanswer, hpassed⟩ := hsucceeds
  have hsteps := step_eq_of_tried hinsists
  refine .behind hresult hmade (fun a ha => by rwa [hsteps a ha]) ?_
  exact hnext value tried m' hresult hmade hsteps (hreplied.unique hanswer ▸ hpassed)

theorem attachTree_reaches :
    ReachesAttachment host m real target (do
      if let some e ← Run.attachTree real target then
        throw (.mount "move_mount" target.path (.os e))) := by
  have hlearns : Learns host m (moveStep real target) (Run.attachTree real target) id :=
    attachTree_learns
  obtain ⟨reply, tried, m', hresult, hmade, hinsists, hreplied⟩ := hlearns
  refine ⟨reply, hreplied, ?_, fun hnul => ⟨m.log, ?_⟩⟩
  · rw [Run.result_bind, hresult]
    cases reply <;> rfl
  · have hlog : m'.log = m.log ++ [⟨m.tree, ⟨.moveMount real target, reply⟩⟩] := by
      rcases hinsists with hinsists | ⟨-, hwithheld⟩
      · cases hinsists with
        | last h => exact hmade.log
        | again hfile h => simp [moveStep, CallStep.opensFile] at hfile
      · simp [moveStep, CallStep.hasNul, hnul] at hwithheld
    rw [Run.result_bind, hresult, ← hlog]
    cases reply <;> rfl

/-- Where the host agrees to the steps up to it, the attachment is reached. -/
theorem bindIdMapped_reaches {mapping : OwnerMapping}
    (hreal : ∀ place, m.tree.locate true path = .ok place → real = Path.ofNames place)
    (hnamespace : ∀ s ∈ userNamespaceSteps mapping, s.Succeeds host m.tree m.attempts)
    (hcopy : (copyStep path).Succeeds host m.tree m.attempts)
    (hmap : (mapStep real).Succeeds host m.tree m.attempts) :
    ReachesAttachment host m real target (Run.bindIdMapped path target false mapping 0 0) := by
  obtain ⟨tried, hmade, hsteps, hcases⟩ := createUserNamespace_turns_out host m mapping
  have hkinds : ∀ a ∈ tried, ∀ kind, kind ∉ (userNamespaceSteps mapping).map (·.kind) →
      a.step.kind ≠ kind := fun a ha kind hkind heq =>
    hkind (List.mem_map.2 ⟨a.step, hsteps a ha, heq⟩)
  have hok : ((Run.createUserNamespace mapping).result host m).1 = .ok () := by
    rcases hcases with ⟨hok, -⟩ | ⟨-, s, e, hfails⟩
    · exact outcome_isOk_iff.1 hok
    · exact absurd hnamespace hfails.not_all
  rw [userNamespaceSteps_kinds] at hkinds
  unfold Run.bindIdMapped
  refine .behind (Prod.ext hok rfl) hmade (fun a ha => hkinds a ha _ (by decide)) ?_
  have hcopy := hmade.succeeds (fun a ha => hkinds a ha _ (by simp [copyStep])) hcopy
  have hmap := hmade.succeeds (fun a ha => hkinds a ha _ (by simp [mapStep])) hmap
  refine .learn cloneTree_learns hcopy (by simp [copyStep])
    fun answer tried₁ m₁ hresult hmade₁ hsteps₁ hpassed => ?_
  cases answer with
  | error e => simp [cloneRefusal, Attempt.passed_some, CallStep.tolerates, copyStep] at hpassed
  | ok copy =>
      obtain ⟨place, hplace, hcopied⟩ := cloneTree_ok hresult
      rw [hmade.tree] at hplace
      obtain rfl : copy = real := hcopied.trans (hreal place hplace).symm
      have hmap := hmade₁.succeeds (fun a ha => by simp [hsteps₁ a ha, copyStep, mapStep]) hmap
      refine .learn mapTree_learns hmap (by simp [mapStep])
        fun refusal tried₂ m₂ _ _ _ hpassed => ?_
      cases refusal with
      | none => exact attachTree_reaches
      | some e => simp [Attempt.passed_some, CallStep.tolerates, mapStep] at hpassed

end Bind

/-- **A probe is conclusive only where the kernel was.** It always gives an
answer, changes no file and makes no step but its own, none of which
mounts anything. It says `supported` just when the process may administer
the system and every step succeeds, and `unsupported` just when it may and
the first step to fail is the copy or the change of the copy, with one of
four numbers; all else leaves the answer open. And what is supported can be
done: with the same replies, a bind of this one mount, whatever its tables
and its target, gets as far as the attachment. -/
theorem probeIdMapping_conclusive (path : Path) (host : Host) (m : Machine) :
    let run := (Run.probeIdMapping path).result host m
    ∃ support real tried, run.1 = .ok support
      ∧ (∀ place, m.tree.locate true path = .ok place → real = Path.ofNames place)
      ∧ Made host m tried run.2
      ∧ (∀ a ∈ tried, a.step ∈ probeSteps path real
          ∧ a.step.kind ≠ .mount ∧ a.step.kind ≠ .moveMount)
      ∧ (support = .supported ↔ host.admin = true
          ∧ ∀ s ∈ probeSteps path real, s.Succeeds host m.tree m.attempts)
      ∧ (support = .unsupported ↔ host.admin = true
          ∧ ∃ s e, FailsFirst host m.tree m.attempts s e (probeSteps path real) ∧ s.Tells e)
      ∧ (support = .indeterminate ↔ host.admin = false
          ∨ ∃ s e, FailsFirst host m.tree m.attempts s e (probeSteps path real) ∧ ¬ s.Tells e)
      ∧ (support = .supported → ∀ target mapping, ReachesAttachment host m real target
          (Run.bindIdMapped path target false mapping 0 0)) := by
  intro run
  obtain ⟨real, hreal⟩ := exists_real m.tree path
  cases hadmin : host.admin with
  | false =>
      obtain ⟨tried, m', hresult, hmade, hsteps⟩ := probeIdMapping_denied path hadmin
      have hrun : run = (.ok .indeterminate, m') := hresult
      refine ⟨.indeterminate, real, tried, by rw [hrun], hreal, by rwa [hrun], fun a ha => ?_, ?_⟩
      · simp [hsteps a ha, probeSteps]
      · simp
  | true =>
      obtain ⟨support, tried, m', hresult, hmade, hsteps, hverdict⟩ :=
        probeIdMapping_judges hadmin hreal
      have hrun : run = (.ok support, m') := hresult
      refine ⟨support, real, tried, by rw [hrun], hreal, by rwa [hrun],
        fun a ha => ⟨hsteps a ha, probeSteps_attach_nothing (hsteps a ha)⟩, ?_, ?_, ?_,
        fun hsupported target mapping => ?_⟩
      · simpa using hverdict.supported_iff
      · simpa using hverdict.unsupported_iff
      · simpa using hverdict.indeterminate_iff
      · have hall := hverdict.supported_iff.1 hsupported
        have hnamespace : ∀ s ∈ userNamespaceSteps probeTables,
            s.Succeeds host m.tree m.attempts := fun s hs => hall s (by simp [probeSteps, hs])
        exact bindIdMapped_reaches hreal (succeeds_userNamespaceSteps hnamespace)
          (hall _ (by simp [probeSteps])) (hall _ (by simp [probeSteps]))

/-- A host that interrupts the first opening of `uid_map` refuses a step of the
probe, and the answer is `supported` all the same. -/
theorem probeIdMapping_outlasts_interruption :
    let run := (Run.probeIdMapping ⟨[slash, 0x73]⟩).result
      (Sample.refusing .uidMap .interrupted) { tree := Sample.sourced }
    run.1 = .ok .supported
      ∧ ¬ ∀ event ∈ run.2.events, event.refusal = none
        ∨ event.call = .write .setgroups "deny" ∧ event.refusal = some .noEntry := by
  intro run
  refine ⟨by decide +kernel, fun hall => ?_⟩
  have hmem : ⟨.write .uidMap "0 0 1\n", some .interrupted⟩ ∈ run.2.events := by decide +kernel
  simpa using hall _ hmem

end ContainerMounts
