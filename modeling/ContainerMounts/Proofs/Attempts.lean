/-
ContainerMounts.Proofs.Attempts — calls made step by step, each only behind
those that passed.

Where several calls belong together, some of them are not put on record,
one may be refused and still count as made, and the opening of a file is
made again while it is interrupted. So what is done is told here as a list
of attempts, each a `CallStep` with the host's answer to it. `Proceeds`
says how attempts come out of a list of steps: in order, each step when
those before it have passed, up to the first that fails. `Made` says that
attempts are what happened between two machines, with the answers that the
host gives at these places.

`Follows` says both of an action, and that it succeeds just when all steps
have passed. It is closed under `bind` (`Follows.bind`), and a step and
what depends on its answer come in front by one rule (`Follows.ask`).

A host has only finitely many refusals, so an opening that is interrupted
is answered otherwise in the end (`asks_uninterrupted`).
-/
import ContainerMounts.IdMappedBind
import ContainerMounts.Proofs.Contract
import Mathlib.Data.List.Perm.Subperm

namespace ContainerMounts

/-! ## Steps and attempts -/

/-- A step: a call of this kind, and what goes on record of it, if
anything does. -/
structure CallStep where
  kind : CallKind
  call? : Option KernelCall := none
  deriving DecidableEq

namespace CallStep

/-- The step opens a file of the helper process. An opening that is
interrupted is made again. -/
def opensFile (s : CallStep) : Bool :=
  match s.kind with
  | .uidMap | .setgroups | .gidMap | .userNamespace => true
  | _ => false

/-- The refusal counts as success: a kernel without the file needs no
denial. -/
def tolerates (s : CallStep) (e : Errno) : Bool := s.kind == .setgroups && e == .noEntry

/-- The call cannot be made, because of a NUL byte in its path. -/
def hasNul (s : CallStep) : Bool :=
  match s.call? with
  | some (.openTree path _) => path.nulPosition?.isSome
  | some (.moveMount _ target) => target.path.nulPosition?.isSome
  | _ => false

/-- Why the files refuse the step: a tree can only be copied from a path
that leads somewhere. -/
def fault? (s : CallStep) (tree : FileTree) : Option Errno :=
  match s.kind, s.call? with
  | .openTree, some (.openTree path _) =>
      match tree.locate true path with
      | .ok _ => none
      | .error e => some e
  | _, _ => none

/-- The answer to the step, with so many calls of its kind before it. -/
def answer (s : CallStep) (host : Host) (tree : FileTree) (index : Nat) : Option Errno :=
  match host.answer s.kind index with
  | some e => some e
  | none => s.fault? tree

end CallStep

/-- A step that was made, and the answer to it. -/
structure Attempt where
  step : CallStep
  answer : Option Errno
  deriving DecidableEq

namespace Attempt

/-- What goes on record. -/
def event? (a : Attempt) : Option Event := a.step.call?.map fun call => ⟨call, a.answer⟩

/-- A file was being opened, and the opening was interrupted. -/
def interrupted (a : Attempt) : Bool := a.step.opensFile && a.answer == some .interrupted

/-- The step is done. -/
def passed (a : Attempt) : Bool :=
  match a.answer with
  | none => true
  | some e => a.step.tolerates e

theorem passed_none (s : CallStep) : passed ⟨s, none⟩ = true := rfl

theorem passed_some (s : CallStep) (e : Errno) : passed ⟨s, some e⟩ = s.tolerates e := rfl

/-- An interrupted opening is not done. -/
theorem not_passed_interrupted (s : CallStep) : passed ⟨s, some .interrupted⟩ = false := by
  have hother : (Errno.interrupted == Errno.noEntry) = false := rfl
  rw [passed_some, CallStep.tolerates, hother, Bool.and_false]

theorem not_interrupted_of_passed {a : Attempt} (h : a.passed = true) : a.interrupted = false := by
  by_contra hagain
  simp only [interrupted, Bool.not_eq_false, Bool.and_eq_true, beq_iff_eq] at hagain
  obtain ⟨step, answer⟩ := a
  obtain rfl : answer = some .interrupted := hagain.2
  rw [not_passed_interrupted] at h
  exact absurd h (by decide)

end Attempt

/-- The steps that have passed. -/
def passedSteps (tried : List Attempt) : List CallStep :=
  (tried.filter (·.passed)).map (·.step)

/-- How attempts come out of steps, and whether all steps have passed. -/
inductive Proceeds : List CallStep → List Attempt → Bool → Prop where
  | done : Proceeds [] [] true
  | withheld {s : CallStep} {rest : List CallStep} (h : s.hasNul = true) :
      Proceeds (s :: rest) [] false
  | failed {s : CallStep} {rest : List CallStep} {e : Errno} (hpassed : s.tolerates e = false)
      (hagain : (⟨s, some e⟩ : Attempt).interrupted = false) :
      Proceeds (s :: rest) [⟨s, some e⟩] false
  | passed {s : CallStep} {rest : List CallStep} {answer : Option Errno} {tried : List Attempt}
      {complete : Bool} (h : (⟨s, answer⟩ : Attempt).passed = true)
      (hrest : Proceeds rest tried complete) :
      Proceeds (s :: rest) (⟨s, answer⟩ :: tried) complete
  | again {s : CallStep} {rest : List CallStep} {answer : Option Errno} {tried : List Attempt}
      {complete : Bool} (hfile : s.opensFile = true)
      (hrest : Proceeds (s :: rest) (⟨s, answer⟩ :: tried) complete) :
      Proceeds (s :: rest) (⟨s, some .interrupted⟩ :: ⟨s, answer⟩ :: tried) complete

namespace Proceeds

variable {xs ys steps : List CallStep} {tried more : List Attempt} {complete : Bool}

theorem append (hx : Proceeds xs tried true) (hy : Proceeds ys more complete) :
    Proceeds (xs ++ ys) (tried ++ more) complete := by
  generalize hall : true = all at hx
  induction hx with
  | done => exact hy
  | withheld h => simp at hall
  | failed hpassed hagain => simp at hall
  | passed h hrest ih => exact .passed h (ih hall)
  | again hfile hrest ih => exact .again hfile (ih hall)

/-- What comes behind a step that fails is not reached. -/
theorem append_stopped (hx : Proceeds xs tried false) : Proceeds (xs ++ ys) tried false := by
  generalize hall : false = all at hx
  induction hx with
  | done => simp at hall
  | withheld h => exact .withheld h
  | failed hpassed hagain => exact .failed hpassed hagain
  | passed h hrest ih => exact .passed h (ih hall)
  | again hfile hrest ih => exact .again hfile (ih hall)

/-- **Each step is attempted when just the steps before it have passed.** -/
theorem reached (h : Proceeds steps tried complete) {before after : List Attempt} {a : Attempt}
    (heq : tried = before ++ a :: after) :
    ∃ rest, steps = passedSteps before ++ a.step :: rest := by
  induction h generalizing before with
  | done => simp at heq
  | withheld h => simp at heq
  | @failed s rest e hpassed hagain =>
      cases before with
      | nil => exact ⟨rest, by simp [passedSteps, (List.cons.inj heq).1.symm]⟩
      | cons b before => simp at heq
  | @passed s rest answer tried complete h hrest ih =>
      cases before with
      | nil => exact ⟨rest, by simp [passedSteps, (List.cons.inj heq).1.symm]⟩
      | cons b before =>
          obtain ⟨rfl, hbehind⟩ := List.cons.inj heq
          obtain ⟨later, hlater⟩ := ih hbehind
          exact ⟨later, by simp [passedSteps, h, hlater]⟩
  | @again s rest answer tried complete hfile hrest ih =>
      cases before with
      | nil => exact ⟨rest, by simp [passedSteps, (List.cons.inj heq).1.symm]⟩
      | cons b before =>
          obtain ⟨rfl, hbehind⟩ := List.cons.inj heq
          obtain ⟨later, hlater⟩ := ih hbehind
          exact ⟨later, by simpa [passedSteps, Attempt.not_passed_interrupted] using hlater⟩

/-- But for those interrupted, the attempts are the first steps in order. -/
theorem in_order (h : Proceeds steps tried complete) :
    (tried.filter (!·.interrupted)).map (·.step) <+: steps := by
  induction h with
  | done => exact List.nil_prefix
  | withheld h => exact List.nil_prefix
  | failed hpassed hagain => simp [hagain]
  | @passed s rest answer tried complete h hrest ih =>
      simpa [Attempt.not_interrupted_of_passed h] using ih
  | again hfile hrest ih => simpa [Attempt.interrupted, hfile] using ih

/-- An interrupted opening is made again at once. -/
theorem made_again (h : Proceeds steps tried complete) {before after : List Attempt} {a : Attempt}
    (heq : tried = before ++ a :: after) (ha : a.interrupted = true) :
    ∃ next rest, after = next :: rest ∧ next.step = a.step := by
  induction h generalizing before with
  | done => simp at heq
  | withheld h => simp at heq
  | failed hpassed hagain =>
      cases before with
      | nil =>
          rw [(List.cons.inj heq).1, ha] at hagain
          exact absurd hagain (by decide)
      | cons b before => simp at heq
  | @passed s rest answer tried complete h hrest ih =>
      cases before with
      | nil =>
          obtain ⟨rfl, -⟩ := List.cons.inj heq
          rw [Attempt.not_interrupted_of_passed h] at ha
          exact absurd ha (by decide)
      | cons b before => exact ih (List.cons.inj heq).2
  | @again s rest answer tried complete hfile hrest ih =>
      cases before with
      | nil =>
          obtain ⟨rfl, rfl⟩ := List.cons.inj heq
          exact ⟨_, _, rfl, rfl⟩
      | cons b before => exact ih (List.cons.inj heq).2

theorem all_passed (h : Proceeds steps tried true) : passedSteps tried = steps := by
  generalize hall : true = all at h
  induction h with
  | done => rfl
  | withheld h => simp at hall
  | failed hpassed hagain => simp at hall
  | passed h hrest ih => simpa [passedSteps, h] using ih hall
  | again hfile hrest ih =>
      simpa [passedSteps, Attempt.not_passed_interrupted] using ih hall

/-- Of steps that all passed, those that tolerate no refusal were accepted,
in order. -/
theorem accepted_sublist (h : Proceeds steps tried true) :
    ((steps.filter (·.kind ≠ .setgroups)).filterMap fun s => s.call?.map (Event.mk · none)).Sublist
      (tried.filterMap Attempt.event?) := by
  generalize hall : true = all at h
  induction h with
  | done => simp
  | withheld h => simp at hall
  | failed hpassed hagain => simp at hall
  | @passed s rest answer tried complete h hrest ih =>
      have ih := ih hall
      by_cases hkind : s.kind = .setgroups
      · rw [List.filter_cons_of_neg (by simpa using hkind)]
        exact ih.trans ((List.sublist_cons_self _ tried).filterMap _)
      · have hanswer : answer = none := by
          cases answer with
          | none => rfl
          | some e => simp [Attempt.passed_some, CallStep.tolerates, hkind] at h
        rw [List.filter_cons_of_pos (by simpa using hkind)]
        cases hcall : s.call? with
        | none => simpa [Attempt.event?, hcall] using ih
        | some call => simpa [Attempt.event?, hcall, hanswer] using ih
  | again hfile hrest ih => exact (ih hall).trans ((List.sublist_cons_self _ _).filterMap _)

/-- If not all steps have passed, the last one has not. -/
theorem last_not_passed (h : Proceeds steps tried false) :
    passedSteps tried <+: steps.dropLast := by
  generalize hall : false = all at h
  induction h with
  | done => simp at hall
  | withheld h => exact List.nil_prefix
  | failed hpassed hagain => simp [passedSteps, Attempt.passed_some, hpassed]
  | @passed s rest answer tried complete h hrest ih =>
      have ih := ih hall
      cases rest with
      | nil => cases hrest; simp at hall
      | cons t rest => simpa [passedSteps, h] using ih
  | again hfile hrest ih =>
      simpa [passedSteps, Attempt.not_passed_interrupted] using ih hall

/-- Where the steps stop, one was refused, or its call cannot be made. -/
theorem stops (h : Proceeds steps tried false) :
    (∃ a, tried.getLast? = some a ∧ a.passed = false ∧ a.interrupted = false)
      ∨ ∃ rest, steps = passedSteps tried ++ rest ∧ ∃ s ∈ rest.head?, s.hasNul = true := by
  generalize hall : false = all at h
  induction h with
  | done => simp at hall
  | @withheld s rest h => exact .inr ⟨s :: rest, rfl, s, rfl, h⟩
  | failed hpassed hagain => exact .inl ⟨_, rfl, hpassed, hagain⟩
  | @passed s rest answer tried complete h hrest ih =>
      rcases ih hall with ⟨a, ha, hfailed⟩ | ⟨rest, hrest, hnul⟩
      · exact .inl ⟨a, by simp [List.getLast?_cons, ha], hfailed⟩
      · exact .inr ⟨rest, by simp [passedSteps, h, hrest], hnul⟩
  | again hfile hrest ih =>
      rcases ih hall with ⟨a, ha, hfailed⟩ | ⟨rest, hrest, hnul⟩
      · exact .inl ⟨a, by simpa [List.getLast?_cons] using ha, hfailed⟩
      · refine .inr ⟨rest, ?_, hnul⟩
        simpa [passedSteps, Attempt.not_passed_interrupted] using hrest

end Proceeds

/-! ## What happens between two machines -/

/-- The answers are the host's, given the calls made before. -/
def Host.Answers (host : Host) (tree : FileTree) : List CallKind → List Attempt → Prop
  | _, [] => True
  | earlier, a :: rest =>
      a.answer = a.step.answer host tree (earlier.count a.step.kind)
        ∧ Answers host tree (earlier ++ [a.step.kind]) rest

/-- From the first machine to the second just these attempts were made, and
the files stayed as they are. -/
structure Made (host : Host) (m : Machine) (tried : List Attempt) (m' : Machine) : Prop where
  tree : m'.tree = m.tree
  kinds : m'.attempts = m.attempts ++ tried.map (·.step.kind)
  log : m'.log = m.log ++ (tried.filterMap Attempt.event?).map (⟨m.tree, ·⟩)
  answers : host.Answers m.tree m.attempts tried

section Made

variable {host : Host} {m m' m'' : Machine} {tried more : List Attempt} {s : CallStep}

theorem Host.Answers.append {tree : FileTree} {earlier : List CallKind}
    (hx : host.Answers tree earlier tried)
    (hy : host.Answers tree (earlier ++ tried.map (·.step.kind)) more) :
    host.Answers tree earlier (tried ++ more) := by
  induction tried generalizing earlier with
  | nil => simpa using hy
  | cons a tried ih => exact ⟨hx.1, ih hx.2 (by simpa using hy)⟩

theorem Host.Answers.of_append {tree : FileTree} {earlier : List CallKind}
    (h : host.Answers tree earlier (tried ++ more)) :
    host.Answers tree earlier tried
      ∧ host.Answers tree (earlier ++ tried.map (·.step.kind)) more := by
  induction tried generalizing earlier with
  | nil => exact ⟨trivial, by simpa using h⟩
  | cons a tried ih =>
      obtain ⟨htried, hmore⟩ := ih h.2
      exact ⟨⟨h.1, htried⟩, by simpa using hmore⟩

/-- The answer to an attempt, by the calls made before it. -/
theorem Host.Answers.at {tree : FileTree} {earlier : List CallKind}
    (h : host.Answers tree earlier tried) {before after : List Attempt} {a : Attempt}
    (heq : tried = before ++ a :: after) :
    a.answer = a.step.answer host tree
      ((earlier ++ before.map (·.step.kind)).count a.step.kind) := by
  induction before generalizing earlier tried with
  | nil =>
      subst heq
      simpa using h.1
  | cons b before ih =>
      subst heq
      simpa using ih h.2 rfl

theorem Made.nil : Made host m [] m := ⟨rfl, by simp, by simp, trivial⟩

theorem Made.append (hx : Made host m tried m') (hy : Made host m' more m'') :
    Made host m (tried ++ more) m'' where
  tree := hy.tree.trans hx.tree
  kinds := by rw [hy.kinds, hx.kinds, List.map_append, List.append_assoc]
  log := by rw [hy.log, hx.log, hx.tree, List.filterMap_append, List.map_append, List.append_assoc]
  answers := hx.answers.append (by rw [← hx.kinds, ← hx.tree]; exact hy.answers)

/-- One attempt. -/
theorem Made.one {answer : Option Errno} (htree : m'.tree = m.tree)
    (hkinds : m'.attempts = m.attempts ++ [s.kind])
    (hlog : m'.log = m.log ++ ((s.call?.map fun call => Event.mk call answer).toList).map
      (⟨m.tree, ·⟩))
    (hanswer : answer = s.answer host m.tree (m.attempts.count s.kind)) :
    Made host m [⟨s, answer⟩] m' where
  tree := htree
  kinds := by simpa using hkinds
  log := by
    rw [hlog]
    cases hcall : s.call? <;> simp [Attempt.event?, hcall]
  answers := ⟨hanswer, trivial⟩

end Made

/-! ## One step -/

/-- A step is made, and made again while it is interrupted. -/
inductive Insists (s : CallStep) : List Attempt → Option Errno → Prop where
  | last {answer : Option Errno} (h : (⟨s, answer⟩ : Attempt).interrupted = false) :
      Insists s [⟨s, answer⟩] answer
  | again {tried : List Attempt} {answer : Option Errno} (hfile : s.opensFile = true)
      (h : Insists s tried answer) : Insists s (⟨s, some .interrupted⟩ :: tried) answer

section Insists

variable {s : CallStep} {tried more : List Attempt} {answer : Option Errno}
  {rest : List CallStep} {complete : Bool}

theorem Insists.head (h : Insists s tried answer) :
    ∃ first behind, tried = ⟨s, first⟩ :: behind := by
  cases h with
  | last h => exact ⟨_, _, rfl⟩
  | again hfile h => exact ⟨_, _, rfl⟩

theorem Insists.step_eq (h : Insists s tried answer) : ∀ a ∈ tried, a.step = s := by
  induction h with
  | last h => simp
  | again hfile h ih => simpa using ih

theorem Insists.then_passed (h : Insists s tried answer)
    (hpassed : (⟨s, answer⟩ : Attempt).passed = true) (hrest : Proceeds rest more complete) :
    Proceeds (s :: rest) (tried ++ more) complete := by
  induction h with
  | last h => exact .passed hpassed hrest
  | again hfile h ih =>
      obtain ⟨first, behind, rfl⟩ := h.head
      exact .again hfile (ih hpassed)

theorem Insists.then_failed {e : Errno} (h : Insists s tried (some e))
    (hpassed : s.tolerates e = false) : Proceeds (s :: rest) tried false := by
  generalize hanswer : some e = answer at h
  induction h with
  | last h =>
      subst hanswer
      exact .failed hpassed h
  | again hfile h ih =>
      obtain ⟨first, behind, rfl⟩ := h.head
      exact .again hfile (ih hanswer)

/-- What is tried begins with the first step, and goes on only if that has
passed. -/
theorem Proceeds.of_cons (h : Proceeds (s :: rest) tried complete) :
    (s.hasNul = true ∧ complete = false)
      ∨ (∃ e, Insists s tried (some e) ∧ s.tolerates e = false ∧ complete = false)
      ∨ ∃ first behind answer, tried = first ++ behind ∧ Insists s first answer
          ∧ (⟨s, answer⟩ : Attempt).passed = true ∧ Proceeds rest behind complete := by
  generalize hsteps : s :: rest = steps at h
  induction h with
  | done => simp at hsteps
  | withheld h =>
      obtain ⟨rfl, rfl⟩ := List.cons.inj hsteps
      exact .inl ⟨h, rfl⟩
  | failed hpassed hagain =>
      obtain ⟨rfl, rfl⟩ := List.cons.inj hsteps
      exact .inr (.inl ⟨_, .last hagain, hpassed, rfl⟩)
  | passed h hrest ih =>
      obtain ⟨rfl, rfl⟩ := List.cons.inj hsteps
      exact .inr (.inr ⟨_, _, _, rfl, .last (Attempt.not_interrupted_of_passed h), h, hrest⟩)
  | again hfile hrest ih =>
      obtain ⟨rfl, rfl⟩ := List.cons.inj hsteps
      rcases ih rfl with hnul | ⟨e, hinsists, hfailed⟩
          | ⟨first, behind, answer, hsplit, hinsists, hpassed⟩
      · exact .inl hnul
      · exact .inr (.inl ⟨e, .again hfile hinsists, hfailed⟩)
      · exact .inr (.inr ⟨_, behind, answer, by rw [hsplit, List.cons_append],
          .again hfile hinsists, hpassed⟩)

end Insists

/-- The action makes the step, unless its call cannot be made, and returns
a value with the answer in it. -/
def Asks {β : Type} (host : Host) (m : Machine) (s : CallStep) (act : Run β)
    (refusal : β → Option Errno) : Prop :=
  ∃ value tried m', act.result host m = (.ok value, m') ∧ Made host m tried m'
    ∧ (Insists s tried (refusal value)
      ∨ tried = [] ∧ s.hasNul = true ∧ ∃ e, refusal value = some e ∧ s.tolerates e = false)

section Asks

variable {host : Host} {m : Machine} {s : CallStep}

/-- An opening that is made again at most so often. -/
theorem persist_insists {act : Run (Option Errno)} (hfile : s.opensFile = true)
    (hact : ∀ m, ∃ answer m', act.result host m = (.ok answer, m')
      ∧ Made host m [⟨s, answer⟩] m') (tries : Nat) (m : Machine) :
    ∃ answer tried m', (Run.persist act tries).result host m = (.ok answer, m')
      ∧ Made host m tried m'
      ∧ (Insists s tried answer ∨ tried = List.replicate (tries + 1) ⟨s, some .interrupted⟩) := by
  induction tries generalizing m with
  | zero =>
      obtain ⟨answer, m', hresult, hmade⟩ := hact m
      refine ⟨answer, _, m', hresult, hmade, ?_⟩
      by_cases hagain : answer = some .interrupted
      · exact .inr (by rw [hagain]; rfl)
      · exact .inl (.last (by simp [Attempt.interrupted, hfile, hagain]))
  | succ tries ih =>
      obtain ⟨answer, m₁, hresult, hmade⟩ := hact m
      rw [Run.persist, Run.result_bind, hresult]
      dsimp only
      by_cases hagain : answer = some .interrupted
      · obtain ⟨answer', tried, m', hresult', hmade', hcases⟩ := ih m₁
        rw [if_pos hagain]
        subst hagain
        refine ⟨answer', _, m', hresult', hmade.append hmade', ?_⟩
        rcases hcases with hinsists | rfl
        · exact .inl (.again hfile hinsists)
        · exact .inr rfl
      · rw [if_neg hagain]
        exact ⟨answer, _, m₁, rfl, hmade,
          .inl (.last (by simp [Attempt.interrupted, hfile, hagain]))⟩

/-- A host refuses no more calls in a row than it has refusals. -/
theorem Host.length_le_of_refused {kind : CallKind} {start n : Nat}
    (h : ∀ i < n, (host.answer kind (start + i)).isSome = true) : n ≤ host.refusals.length := by
  have hsubset : (List.range n).map (start + ·) ⊆ host.refusals.map (·.index) := by
    intro j hj
    obtain ⟨i, hi, rfl⟩ := List.mem_map.1 hj
    have hrefused := h i (List.mem_range.1 hi)
    rw [Host.answer, Option.isSome_map, List.find?_isSome] at hrefused
    obtain ⟨r, hr, hfound⟩ := hrefused
    exact List.mem_map.2 ⟨r, hr, (of_decide_eq_true hfound).2⟩
  have hnodup : ((List.range n).map (start + ·)).Nodup :=
    List.pairwise_map.2 (List.nodup_range.imp fun hne heq => hne (Nat.add_left_cancel heq))
  simpa using (List.Nodup.subperm hnodup hsubset).length_le

theorem CallStep.answer_of_opensFile {tree : FileTree} {index : Nat} (hfile : s.opensFile = true) :
    s.answer host tree index = host.answer s.kind index := by
  have hfault : s.fault? tree = none := by
    unfold fault?
    split
    · rename_i hkind _
      simp [opensFile, hkind] at hfile
    · rfl
  rw [answer, hfault]
  cases host.answer s.kind index <;> rfl

theorem answers_replicate {tree : FileTree} {earlier : List CallKind} {answer : Option Errno}
    {n : Nat} (h : host.Answers tree earlier (List.replicate n ⟨s, answer⟩)) :
    ∀ i < n, s.answer host tree (earlier.count s.kind + i) = answer := by
  induction n generalizing earlier with
  | zero => intro i hi; omega
  | succ n ih =>
      intro i hi
      rw [List.replicate_succ] at h
      cases i with
      | zero => exact h.1.symm
      | succ i =>
          have := ih h.2 i (by omega)
          rw [List.count_append, List.count_singleton_self] at this
          rw [← this]
          congr 1
          omega

/-- An opening that is made until it is not interrupted. -/
theorem asks_uninterrupted {act : Run (Option Errno)} (hfile : s.opensFile = true)
    (hact : ∀ m, ∃ answer m', act.result host m = (.ok answer, m')
      ∧ Made host m [⟨s, answer⟩] m') : Asks host m s (Run.uninterrupted act) id := by
  obtain ⟨answer, tried, m', hresult, hmade, hcases⟩ :=
    persist_insists hfile hact host.refusals.length m
  refine ⟨answer, tried, m', hresult, hmade, .inl ?_⟩
  rcases hcases with hinsists | rfl
  · exact hinsists
  · -- one more interruption than the host has refusals
    have hanswers := answers_replicate hmade.answers
    have hmany : host.refusals.length + 1 ≤ host.refusals.length :=
      Host.length_le_of_refused fun i hi => by
        rw [← CallStep.answer_of_opensFile hfile, hanswers i hi]
        rfl
    omega

theorem made_attempt (host : Host) (m : Machine) (kind : CallKind) :
    ∃ answer m', (Run.attempt kind).result host m = (.ok answer, m')
      ∧ Made host m [⟨⟨kind, none⟩, answer⟩] m' := by
  refine ⟨_, _, Run.result_attempt host m kind, .one rfl rfl (by simp) ?_⟩
  have hfault : (⟨kind, none⟩ : CallStep).fault? m.tree = none := by
    cases kind <;> rfl
  rw [CallStep.answer, hfault]
  cases host.answer kind (m.attempts.count kind) <;> rfl

theorem made_issue (host : Host) (m : Machine) (kind : CallKind) (call : KernelCall)
    (hkind : (⟨kind, some call⟩ : CallStep).fault? m.tree = none) :
    ∃ answer m', (Run.issue kind call).result host m = (.ok answer, m')
      ∧ Made host m [⟨⟨kind, some call⟩, answer⟩] m' := by
  refine ⟨_, _, rfl, .one rfl rfl rfl ?_⟩
  rw [CallStep.answer, hkind]
  cases host.answer kind (m.attempts.count kind) <;> rfl

end Asks

/-! ## Actions -/

/-- The action makes these steps, and succeeds if all pass. -/
def Follows (host : Host) (m : Machine) (act : Run Unit) (steps : List CallStep) : Prop :=
  ∃ tried, Made host m tried (act.result host m).2
    ∧ Proceeds steps tried (act.result host m).1.isOk

namespace Follows

variable {host : Host} {m : Machine} {act next : Run Unit} {xs ys steps : List CallStep}
  {s : CallStep}

theorem pure : Follows host m (Pure.pure ()) [] := ⟨[], .nil, .done⟩

/-- One action after the other. -/
theorem bind (h : Follows host m act xs)
    (hnext : ∀ m', m'.tree = m.tree → Follows host m' next ys) :
    Follows host m (act >>= fun _ => next) (xs ++ ys) := by
  obtain ⟨tried, hmade, hproceeds⟩ := h
  rw [Follows, Run.result_bind]
  cases hresult : act.result host m with
  | mk outcome m' =>
      rw [hresult] at hmade hproceeds
      cases outcome with
      | error e => exact ⟨tried, hmade, hproceeds.append_stopped⟩
      | ok _ =>
          obtain ⟨more, hmade', hproceeds'⟩ := hnext m' hmade.tree
          exact ⟨tried ++ more, hmade.append hmade', hproceeds.append hproceeds'⟩

/-- A step, and what is done with the answer to it: a step that has not
passed ends the action. -/
theorem ask {β : Type} {act : Run β} {refusal : β → Option Errno} {f : β → Run Unit}
    (h : Asks host m s act refusal)
    (hpassed : ∀ value m', act.result host m = (.ok value, m') → m'.tree = m.tree →
      (⟨s, refusal value⟩ : Attempt).passed = true → Follows host m' (f value) steps)
    (hfailed : ∀ value e, refusal value = some e → s.tolerates e = false →
      ∃ error, f value = throw error) :
    Follows host m (act >>= f) (s :: steps) := by
  obtain ⟨value, tried, m', hresult, hmade, hcases⟩ := h
  rw [Follows, Run.result_bind, hresult]
  dsimp only
  rcases hcases with hinsists | ⟨rfl, hnul, e, hrefused, htolerates⟩
  · cases hanswer : (⟨s, refusal value⟩ : Attempt).passed with
    | true =>
        obtain ⟨more, hmade', hproceeds⟩ := hpassed value m' hresult hmade.tree hanswer
        exact ⟨tried ++ more, hmade.append hmade', hinsists.then_passed hanswer hproceeds⟩
    | false =>
        cases hrefused : refusal value with
        | none => simp [hrefused, Attempt.passed_none] at hanswer
        | some e =>
            rw [hrefused, Attempt.passed_some] at hanswer
            obtain ⟨error, hthrow⟩ := hfailed value e hrefused hanswer
            rw [hthrow, Run.result_throw]
            exact ⟨tried, hmade, (hrefused ▸ hinsists).then_failed hanswer⟩
  · obtain ⟨error, hthrow⟩ := hfailed value e hrefused htolerates
    rw [hthrow, Run.result_throw]
    exact ⟨[], hmade, .withheld hnul⟩

/-- A step every refusal of which ends the action. -/
theorem demand {act : Run (Option Errno)} {f : Option Errno → Run Unit}
    (h : Asks host m s act id) (hstrict : ∀ e, s.tolerates e = false)
    (hnone : ∀ m', m'.tree = m.tree → Follows host m' (f none) steps)
    (hsome : ∀ e, ∃ error, f (some e) = throw error) :
    Follows host m (act >>= f) (s :: steps) := by
  refine ask h (fun refusal m' _ htree hpassed => ?_) fun refusal e hrefused _ => ?_
  · cases refusal with
    | none => exact hnone m' htree
    | some e =>
        rw [id, Attempt.passed_some, hstrict] at hpassed
        exact absurd hpassed (by decide)
  · obtain rfl : refusal = some e := hrefused
    exact hsome e

end Follows

end ContainerMounts
