/-
ContainerMounts.Text.Pieces — cutting a list at every occurrence of a
separator.

* `pieces sep xs` is the list of maximal runs of `xs` that hold no `sep`;
  there is one run more than there are separators, so a text without
  separators is one piece and two neighbouring separators enclose an
  empty piece.
* `joinPieces` puts the separators back, and undoes `pieces`
  (`joinPieces_pieces`).
-/

namespace ContainerMounts

variable {α : Type}

/-- The maximal runs of `xs` between occurrences of `sep`. -/
def pieces [DecidableEq α] (sep : α) : List α → List (List α)
  | [] => [[]]
  | x :: xs =>
      if x = sep then [] :: pieces sep xs
      else
        match pieces sep xs with
        | [] => [[x]]
        | p :: ps => (x :: p) :: ps

/-- The runs with `sep` between neighbours. -/
def joinPieces (sep : α) : List (List α) → List α
  | [] => []
  | [p] => p
  | p :: q :: ps => p ++ sep :: joinPieces sep (q :: ps)

theorem pieces_ne_nil [DecidableEq α] (sep : α) (xs : List α) : pieces sep xs ≠ [] := by
  cases xs with
  | nil => simp [pieces]
  | cons x xs =>
      simp only [pieces]
      split
      · simp
      · split <;> simp

/-- Cutting loses nothing. -/
theorem joinPieces_pieces [DecidableEq α] (sep : α) (xs : List α) :
    joinPieces sep (pieces sep xs) = xs := by
  induction xs with
  | nil => rfl
  | cons x xs ih =>
      simp only [pieces]
      split
      · rename_i h
        cases hp : pieces sep xs with
        | nil => exact absurd hp (pieces_ne_nil sep xs)
        | cons p ps =>
            rw [hp] at ih
            simp [joinPieces, ih, h]
      · cases hp : pieces sep xs with
        | nil => exact absurd hp (pieces_ne_nil sep xs)
        | cons p ps =>
            rw [hp] at ih
            cases ps <;> simp_all [joinPieces]

end ContainerMounts
