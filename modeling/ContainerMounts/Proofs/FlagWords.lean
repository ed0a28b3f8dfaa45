/-
ContainerMounts.Proofs.FlagWords — which flags a word has.

`MountFlags.includes` is read as membership: a union has what one of its
parts has, and what is taken away leaves the rest alone. For a single flag
(`MountFlags.IsBit`) these are equations. The four `restrictions` are the
flags that a mount table lists by a word of their own and that a mount may
not lose by accident; `inherit_includes` says that a word inherited from
the table has all that the enclosing mount lists.
-/
import ContainerMounts.MountTable.Inherit
import ContainerMounts.Options.Flags
import Mathlib.Data.List.Basic

namespace ContainerMounts

namespace MountFlags

variable {flags other part : MountFlags}

/-- Every bit of the part is one of the word. -/
theorem includes_iff :
    flags.includes part = true ↔ ∀ i, part.getLsbD i = true → flags.getLsbD i = true := by
  unfold includes
  rw [beq_iff_eq]
  constructor
  · intro h i hi
    have hbit : (flags &&& part).getLsbD i = true := by rw [h, hi]
    rw [BitVec.getLsbD_and, Bool.and_eq_true] at hbit
    exact hbit.1
  · intro h
    apply BitVec.eq_of_getLsbD_eq
    intro i _
    rw [BitVec.getLsbD_and]
    cases hi : part.getLsbD i with
    | false => simp
    | true => simp [h i hi]

/-- The words have no bit in common. -/
def Apart (flags part : MountFlags) : Prop := flags &&& part = 0

instance (flags part : MountFlags) : Decidable (Apart flags part) :=
  inferInstanceAs (Decidable (flags &&& part = 0))

theorem Apart.getLsbD (h : Apart flags part) {i : Nat} (hi : part.getLsbD i = true) :
    flags.getLsbD i = false := by
  have hbit : (flags &&& part).getLsbD i = false := by rw [h]; simp
  rw [BitVec.getLsbD_and, hi, Bool.and_true] at hbit
  exact hbit

theorem includes_or_left (h : flags.includes part = true) :
    includes (flags ||| other) part = true := by
  rw [includes_iff] at h ⊢
  intro i hi
  rw [BitVec.getLsbD_or, h i hi, Bool.true_or]

theorem includes_or_right (h : other.includes part = true) :
    includes (flags ||| other) part = true := by
  rw [includes_iff] at h ⊢
  intro i hi
  rw [BitVec.getLsbD_or, h i hi, Bool.or_true]

theorem includes_or_of_apart (h : Apart other part) :
    includes (flags ||| other) part = flags.includes part := by
  rw [Bool.eq_iff_iff, includes_iff, includes_iff]
  apply forall₂_congr
  intro i hi
  rw [BitVec.getLsbD_or, h.getLsbD hi, Bool.or_false]

theorem includes_without_of_apart (h : Apart other part) :
    (flags.without other).includes part = flags.includes part := by
  rw [Bool.eq_iff_iff, includes_iff, includes_iff]
  apply forall₂_congr
  intro i hi
  rw [without, BitVec.getLsbD_and, BitVec.getLsbD_not, h.getLsbD hi]
  by_cases hlt : i < 64
  · simp [hlt]
  · simp [BitVec.getLsbD_of_ge part i (by omega)] at hi

theorem Apart.or (h : Apart flags part) (h' : Apart other part) : Apart (flags ||| other) part := by
  apply BitVec.eq_of_getLsbD_eq
  intro i _
  rw [BitVec.getLsbD_and, BitVec.getLsbD_or]
  cases hi : part.getLsbD i with
  | false => simp
  | true => simp [h.getLsbD hi, h'.getLsbD hi]

theorem Apart.ite {p : Prop} [Decidable p] (h : Apart flags part) :
    Apart (if p then flags else 0) part := by
  split
  · exact h
  · simp [Apart]

theorem Apart.without (h : Apart flags part) : Apart (flags.without other) part := by
  apply BitVec.eq_of_getLsbD_eq
  intro i _
  rw [MountFlags.without, BitVec.getLsbD_and, BitVec.getLsbD_and]
  cases hi : part.getLsbD i with
  | false => simp
  | true => simp [h.getLsbD hi]

theorem Apart.symm (h : Apart flags part) : Apart part flags := by
  rw [Apart, BitVec.and_comm]
  exact h

theorem Apart.of_includes (h : Apart flags part) (hother : flags.includes other = true) :
    Apart other part := by
  rw [includes, beq_iff_eq] at hother
  rw [Apart, ← hother, BitVec.and_comm flags, BitVec.and_assoc, h]
  exact BitVec.and_zero

/-! ## Single flags -/

/-- The word is one flag. -/
def IsBit (part : MountFlags) : Prop := ∃ i, i < 64 ∧ part = BitVec.twoPow 64 i

/-- A word has a single flag if it has its bit. -/
theorem IsBit.includes_eq_getLsbD (h : IsBit part) :
    ∃ i, i < 64 ∧ ∀ flags : MountFlags, flags.includes part = flags.getLsbD i := by
  obtain ⟨i, hi, rfl⟩ := h
  refine ⟨i, hi, fun flags => ?_⟩
  rw [includes, BitVec.and_twoPow]
  cases flags.getLsbD i with
  | true => simp
  | false =>
      have hset : (BitVec.twoPow 64 i).getLsbD i = true := by simp [hi]
      have hne : (0#64) ≠ BitVec.twoPow 64 i := fun h => by simp [← h] at hset
      simpa using hne

theorem IsBit.includes_or (h : IsBit part) :
    includes (flags ||| other) part = (flags.includes part || other.includes part) := by
  obtain ⟨i, -, hbit⟩ := h.includes_eq_getLsbD
  rw [hbit, hbit, hbit, BitVec.getLsbD_or]

theorem IsBit.includes_without (h : IsBit part) :
    (flags.without other).includes part = (flags.includes part && !other.includes part) := by
  obtain ⟨i, hi, hbit⟩ := h.includes_eq_getLsbD
  rw [hbit, hbit, hbit, without, BitVec.getLsbD_and, BitVec.getLsbD_not, decide_eq_true hi,
    Bool.true_and]

theorem IsBit.includes_none (h : IsBit part) : includes 0 part = false := by
  obtain ⟨i, -, hbit⟩ := h.includes_eq_getLsbD
  rw [hbit]
  simp

theorem IsBit.includes_ite (h : IsBit part) {p : Prop} [Decidable p] :
    includes (if p then flags else 0) part = (decide p && flags.includes part) := by
  split_ifs with hp
  · rw [decide_eq_true hp, Bool.true_and]
  · rw [decide_eq_false hp, Bool.false_and, h.includes_none]

theorem IsBit.includes_of_apart (h : IsBit part) (hapart : Apart flags part) :
    flags.includes part = false := by
  rw [← h.includes_none, includes, includes, hapart]
  simp

/-- A fold of unions has a single flag if one of its parts has. -/
theorem IsBit.includes_foldl (h : IsBit part) {α : Type} (f : α → MountFlags) (xs : List α) :
    includes (xs.foldl (fun flags x => flags ||| f x) flags) part
      = (flags.includes part || xs.any fun x => (f x).includes part) := by
  induction xs generalizing flags with
  | nil => simp
  | cons x rest ih => rw [List.foldl_cons, ih, h.includes_or, List.any_cons, Bool.or_assoc]

/-- A word has a single flag, or nothing of it. -/
theorem IsBit.and_eq (h : IsBit part) :
    flags &&& part = if flags.includes part then part else 0 := by
  obtain ⟨i, hi, rfl⟩ := h
  rw [includes, BitVec.and_twoPow]
  cases flags.getLsbD i with
  | true => simp
  | false =>
      rw [if_neg (by simp)]
      split_ifs with h
      · exact eq_of_beq h
      · rfl

theorem IsBit.apart (h : IsBit part) (hnot : flags.includes part = false) : Apart flags part := by
  rw [Apart, h.and_eq, hnot]
  rfl

/-! ## The flags of calls -/

/-- The two flags that make a call a remount of a bind. -/
def bindRemount : MountFlags := bind ||| remount

theorem not_includes_of_apart (h : Apart flags bindRemount) :
    flags.includes bindRemount = false := by
  rw [Bool.eq_false_iff]
  intro hincludes
  have hbit := includes_iff.1 hincludes 5 (by decide)
  rw [h.getLsbD (by decide)] at hbit
  simp at hbit

/-- A remount of a filesystem is no remount of a bind. -/
theorem not_includes_or_remount (h : Apart flags bindRemount) :
    includes (flags ||| remount) bindRemount = false := by
  rw [Bool.eq_false_iff]
  intro hincludes
  have hbit := includes_iff.1 hincludes 12 (by decide)
  rw [BitVec.getLsbD_or, h.getLsbD (by decide)] at hbit
  simp [remount] at hbit

theorem includes_or_bind_or_remount :
    includes (flags ||| bind ||| remount) bindRemount = true := by
  rw [BitVec.or_assoc]
  exact includes_or_right (by decide)

/-! ## Restrictions -/

/-- The restrictions of a mount, by the words that a mount table has for
them. -/
def restrictions : List (String × MountFlags) :=
  [("ro", readonly), ("nosuid", nosuid), ("nodev", nodev), ("noexec", noexec)]

theorem ofOption_restriction {word : String} {flag : MountFlags}
    (h : (word, flag) ∈ restrictions) : ofOption word = flag := by
  simp only [restrictions, List.mem_cons, Prod.mk.injEq, List.not_mem_nil, or_false] at h
  obtain ⟨rfl, rfl⟩ | ⟨rfl, rfl⟩ | ⟨rfl, rfl⟩ | ⟨rfl, rfl⟩ := h <;> rfl

/-- A restriction has no bit in common with a word that has none of the four
lowest bits. -/
theorem apart_restriction {word : String} {flag : MountFlags} (h : (word, flag) ∈ restrictions)
    (hother : ∀ e ∈ restrictions, Apart other e.2) : Apart other flag :=
  hother (word, flag) h

/-- A restriction is one bit, so a word has it or has nothing of it. -/
theorem apart_of_not_includes {word : String} {flag : MountFlags}
    (h : (word, flag) ∈ restrictions) (hnot : flags.includes flag = false) : Apart flags flag := by
  have hbit : IsBit flag := by
    simp only [restrictions, List.mem_cons, Prod.mk.injEq, List.not_mem_nil, or_false] at h
    obtain ⟨-, rfl⟩ | ⟨-, rfl⟩ | ⟨-, rfl⟩ | ⟨-, rfl⟩ := h
    · exact ⟨0, by decide, by decide⟩
    · exact ⟨1, by decide, by decide⟩
    · exact ⟨2, by decide, by decide⟩
    · exact ⟨3, by decide, by decide⟩
  exact hbit.apart hnot

end MountFlags

/-! ## Flags from options -/

open MountFlags

/-- The flags of a mount, as options and mount tables know them. The others say what
a call does with the mount. -/
def MountFlags.settings : MountFlags :=
  readonly ||| nosuid ||| nodev ||| noexec ||| synchronous ||| dirsync ||| noatime ||| nodiratime
    ||| relatime ||| strictatime

/-- Options ask for flags of a mount only. -/
theorem MountOptions.flags_apart_of {part : MountFlags} (h : Apart settings part)
    (o : MountOptions) : Apart o.flags part := by
  have hatime : Apart o.atime.flag part := h.of_includes (by cases o.atime <;> decide)
  have hsync : Apart o.sync.flag part := h.of_includes (by cases o.sync <;> decide)
  unfold MountOptions.flags
  refine ((((Apart.or ?_ ?_).or ?_).or ?_).or hatime).or hsync
  all_goals exact Apart.ite (h.of_includes (by decide))

theorem MountOptions.flags_apart (o : MountOptions) : Apart o.flags bindRemount :=
  o.flags_apart_of (by decide)

theorem Propagation.flags_apart (p : Propagation) : Apart p.flags bindRemount := by
  obtain ⟨mode, recursive⟩ := p
  cases mode <;> cases recursive <;> decide

/-! ## Flags from the mount table -/

theorem MountRecord.flags_includes {r : MountRecord} {word : String}
    (h : r.hasOption word = true) : r.flags.includes (ofOption word) = true := by
  have hfold : ∀ (options : List String) (start : MountFlags),
      start.includes (ofOption word) = true ∨ word ∈ options →
      includes (options.foldl (fun flags option => flags ||| ofOption option) start)
        (ofOption word) = true := by
    intro options
    induction options with
    | nil =>
        intro start hstart
        simpa using hstart
    | cons option rest ih =>
        intro start hstart
        refine ih _ ?_
        rcases hstart with hstart | hword
        · exact .inl (includes_or_left hstart)
        · rcases List.mem_cons.1 hword with rfl | hword
          · exact .inl (includes_or_right (by simp [includes]))
          · exact .inr hword
  exact hfold r.vfsOptions _ (.inr (List.contains_iff_mem.1 h))

/-- A mount in a table has flags of a mount only. -/
theorem MountRecord.flags_apart_of {part : MountFlags} (h : Apart settings part)
    (r : MountRecord) : Apart r.flags part := by
  have hoption : ∀ option, Apart (ofOption option) part := by
    intro option
    unfold ofOption
    split <;> exact h.of_includes (by decide)
  have hnone : Apart MountFlags.none part := h.of_includes (by decide)
  exact List.foldlRecOn (motive := fun flags => Apart flags part) r.vfsOptions _ hnone
    fun _ h option _ => h.or (hoption option)

namespace MountTable

variable {table : MountTable} {path : Path} {wanted relaxed flag : MountFlags} {r : MountRecord}
  {word : String}

theorem inherit_includes_wanted (h : wanted.includes flag = true) :
    (table.inherit path wanted).includes flag = true :=
  includes_or_right h

/-- What the enclosing mount lists is inherited. -/
theorem inherit_includes (hr : table.enclosing path = some r) (hword : r.hasOption word = true)
    (hflag : (word, flag) ∈ restrictions) : (table.inherit path wanted).includes flag = true := by
  have hambient : (table.ambient path).includes flag = true := by
    rw [ambient, hr, ← ofOption_restriction hflag]
    exact r.flags_includes hword
  have hapart : Apart atimeModes flag := apart_restriction hflag (by decide)
  unfold inherit
  refine includes_or_left ?_
  split
  · rwa [includes_without_of_apart hapart]
  · exact hambient

theorem inheritRelaxed_includes (hr : table.enclosing path = some r)
    (hword : r.hasOption word = true) (hflag : (word, flag) ∈ restrictions)
    (hrelaxed : relaxed.includes flag = false) :
    (table.inheritRelaxed path wanted relaxed).includes flag = true := by
  rw [inheritRelaxed, includes_without_of_apart (apart_of_not_includes hflag hrelaxed)]
  exact inherit_includes hr hword hflag

/-- What is inherited are flags of a mount, so nothing else is added to what is
wanted. -/
theorem inherit_apart_of {part : MountFlags} (hpart : Apart settings part)
    (h : Apart wanted part) : Apart (table.inherit path wanted) part := by
  have hambient : Apart (table.ambient path) part := by
    unfold ambient
    split
    · exact MountRecord.flags_apart_of hpart _
    · exact hpart.of_includes (by decide)
  unfold inherit
  refine Apart.or ?_ h
  split
  · exact hambient.without
  · exact hambient

theorem inherit_apart (h : Apart wanted bindRemount) :
    Apart (table.inherit path wanted) bindRemount :=
  inherit_apart_of (by decide) h

end MountTable

end ContainerMounts
