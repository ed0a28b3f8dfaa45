/-
ContainerMounts.Proofs.TextPieces — what cutting a text finds, and what
joining puts back.

Pieces that hold no separator are found again when they were joined
(`pieces_joinPieces`), and lines that hold no line feed are found again when
each was ended by one (`lines_terminated`).
-/
import ContainerMounts.Text.Lines
import Mathlib.Data.List.Basic

namespace ContainerMounts

/-! ## Pieces -/

section Pieces

variable {α : Type} [DecidableEq α] {sep : α}

theorem pieces_eq_singleton {xs : List α} (h : sep ∉ xs) : pieces sep xs = [xs] := by
  induction xs with
  | nil => rfl
  | cons x xs ih =>
      have hx : x ≠ sep := fun hx => h (by simp [hx])
      have hxs : sep ∉ xs := fun hxs => h (List.mem_cons_of_mem x hxs)
      simp [pieces, hx, ih hxs]

theorem pieces_append_sep (sep : α) (xs ys : List α) :
    pieces sep (xs ++ sep :: ys) = pieces sep xs ++ pieces sep ys := by
  induction xs with
  | nil => simp [pieces]
  | cons x xs ih =>
      simp only [List.cons_append, pieces, ih]
      split
      · simp
      · cases hp : pieces sep xs with
        | nil => exact absurd hp (pieces_ne_nil sep xs)
        | cons p ps => rfl

theorem sep_notMem_of_mem_pieces {xs : List α} :
    ∀ p ∈ pieces sep xs, sep ∉ p := by
  induction xs with
  | nil => simp [pieces]
  | cons x xs ih =>
      intro p hp
      simp only [pieces] at hp
      split at hp
      · rcases List.mem_cons.1 hp with rfl | hp
        · simp
        · exact ih p hp
      · rename_i hx
        cases hps : pieces sep xs with
        | nil => exact absurd hps (pieces_ne_nil sep xs)
        | cons q qs =>
            rw [hps] at hp ih
            rcases List.mem_cons.1 hp with rfl | hp
            · have hq := ih q (by simp)
              simp [hq, Ne.symm hx]
            · exact ih p (by simp [hp])

theorem mem_of_mem_pieces {xs : List α} {a : α} :
    ∀ p ∈ pieces sep xs, a ∈ p → a ∈ xs := by
  induction xs with
  | nil => simp [pieces]
  | cons x xs ih =>
      intro p hp ha
      simp only [pieces] at hp
      split at hp
      · rcases List.mem_cons.1 hp with rfl | hp
        · simp at ha
        · exact List.mem_cons_of_mem x (ih p hp ha)
      · cases hps : pieces sep xs with
        | nil => exact absurd hps (pieces_ne_nil sep xs)
        | cons q qs =>
            rw [hps] at hp ih
            rcases List.mem_cons.1 hp with rfl | hp
            · rcases List.mem_cons.1 ha with rfl | ha
              · simp
              · exact List.mem_cons_of_mem x (ih q (by simp) ha)
            · exact List.mem_cons_of_mem x (ih p (by simp [hp]) ha)

end Pieces

/-! ## Pieces with separators between them -/

section Joined

variable {α : Type} {sep : α}

theorem joinPieces_append {xs ys : List (List α)} (hx : xs ≠ []) (hy : ys ≠ []) :
    joinPieces sep (xs ++ ys) = joinPieces sep xs ++ sep :: joinPieces sep ys := by
  induction xs with
  | nil => exact absurd rfl hx
  | cons p ps ih =>
      cases ps with
      | nil =>
          cases ys with
          | nil => exact absurd rfl hy
          | cons q qs => rfl
      | cons q qs =>
          have := ih (List.cons_ne_nil q qs)
          simp only [List.cons_append] at this
          simp [joinPieces, this]

theorem mem_joinPieces {c : α} {ps : List (List α)} (h : c ∈ joinPieces sep ps) :
    c = sep ∨ ∃ p ∈ ps, c ∈ p := by
  induction ps with
  | nil => simp [joinPieces] at h
  | cons p ps ih =>
      cases ps with
      | nil => exact .inr ⟨p, List.mem_cons_self, h⟩
      | cons q qs =>
          simp only [joinPieces, List.mem_append, List.mem_cons] at h
          rcases h with h | h | h
          · exact .inr ⟨p, List.mem_cons_self, h⟩
          · exact .inl h
          · rcases ih h with h | ⟨r, hr, hc⟩
            · exact .inl h
            · exact .inr ⟨r, List.mem_cons_of_mem _ hr, hc⟩

/-- Pieces that hold no separator are found again. -/
theorem pieces_joinPieces [DecidableEq α] {ps : List (List α)} (hne : ps ≠ [])
    (h : ∀ p ∈ ps, sep ∉ p) : pieces sep (joinPieces sep ps) = ps := by
  induction ps with
  | nil => exact absurd rfl hne
  | cons p ps ih =>
      have hp : pieces sep p = [p] := pieces_eq_singleton (h p List.mem_cons_self)
      cases ps with
      | nil => exact hp
      | cons q qs =>
          rw [joinPieces, pieces_append_sep, hp,
            ih (List.cons_ne_nil q qs) fun r hr => h r (List.mem_cons_of_mem _ hr)]
          rfl

/-- Pieces that a separator ends are the pieces between the separators, and
nothing is left behind the last one. -/
theorem pieces_terminated [DecidableEq α] {ps : List (List α)} (h : ∀ p ∈ ps, sep ∉ p) :
    pieces sep (ps.flatMap fun p => p ++ [sep]) = ps ++ [[]] := by
  induction ps with
  | nil => rfl
  | cons p ps ih =>
      have hp : pieces sep p = [p] := pieces_eq_singleton (h p List.mem_cons_self)
      have hsplit : (p :: ps).flatMap (fun p => p ++ [sep])
          = p ++ sep :: ps.flatMap fun p => p ++ [sep] := by simp
      rw [hsplit, pieces_append_sep, hp, ih fun q hq => h q (List.mem_cons_of_mem p hq)]
      rfl

end Joined

/-! ## Lines -/

namespace Text

theorem mem_of_mem_stripReturn {c : Char} {line : List Char} (h : c ∈ stripReturn line) :
    c ∈ line := by
  rw [stripReturn] at h
  split at h
  · exact (List.dropLast_sublist line).subset h
  · exact h

theorem stripReturn_eq_self {line : List Char} (h : line.getLast? ≠ some '\r') :
    stripReturn line = line := by
  rw [stripReturn, if_neg h]

/-- Lines that a line feed ends are found again, but for a carriage return in
front of it. -/
theorem lines_terminated (texts : List (List Char)) (h : ∀ t ∈ texts, '\n' ∉ t) :
    lines (texts.flatMap fun t => t ++ ['\n']) = texts.map stripReturn := by
  rw [lines]
  simp only [pieces_terminated h]
  simp

end Text

end ContainerMounts
