/-
ContainerMounts.Proofs.Growth — trees that only gain files.

`FileTree.Grows top before after` says that every file of `before` is in
`after` as it was, and that what `after` has on top of that lies strictly
below the place `top`. The relation is reflexive and transitive, so a
run that grows the tree at every step grows it as a whole.

Main statement: a file put where none was, into a directory below `top`,
grows the tree (`grows_put`).
-/
import ContainerMounts.Proofs.Paths

namespace ContainerMounts

theorem Node.eq_symlink_of_isSymlink {node : Node} (h : node.isSymlink = true) :
    ∃ text, node = .symlink text := by
  cases node with
  | symlink text => exact ⟨text, rfl⟩
  | _ => simp [Node.isSymlink] at h

theorem Node.isSymlink_eq_false {node : Node} (h : ∀ text, node = .symlink text → False) :
    node.isSymlink = false := by
  cases node with
  | symlink text => exact (h text rfl).elim
  | _ => rfl

theorem Node.eq_dir_of_isDir {node : Node} (h : node.isDir = true) :
    ∃ mode entries, node = .dir mode entries := by
  cases node with
  | dir mode entries => exact ⟨mode, entries, rfl⟩
  | _ => simp [Node.isDir] at h

namespace FileTree

/-- What is known of the file at the place without looking into it. -/
def statAt? (tree : FileTree) (place : List Name) : Option Stat := (tree.at? place).map Node.stat

/-- A directory is at the place. -/
def IsDirAt (tree : FileTree) (place : List Name) : Prop :=
  ∃ mode entries, tree.at? place = some (.dir mode entries)

/-- A symlink is at the place. -/
def IsSymlinkAt (tree : FileTree) (place : List Name) : Prop :=
  ∃ text, tree.at? place = some (.symlink text)

/-- Every file is in the tree under names that a directory can hold. -/
def WellNamed (tree : FileTree) : Prop :=
  ∀ place node, tree.at? place = some node → ∀ name ∈ place, PlainName name

/-- Every file stays as it is. -/
def Keeps (before after : FileTree) : Prop :=
  ∀ place s, before.statAt? place = some s → after.statAt? place = some s

/-- Every file stays as it is, and new ones lie strictly below `top`, under
names that a directory can hold. -/
structure Grows (top : List Name) (before after : FileTree) : Prop where
  kept : ∀ place s, before.statAt? place = some s → after.statAt? place = some s
  below : ∀ place, before.statAt? place = none → after.statAt? place ≠ none →
    ∃ rest, rest ≠ [] ∧ (∀ name ∈ rest, PlainName name) ∧ place = top ++ rest

/-! ## Places -/

theorem statAt?_eq_none {tree : FileTree} {place : List Name} :
    tree.statAt? place = none ↔ tree.at? place = none := by
  simp [statAt?]

theorem isDirAt_iff {tree : FileTree} {place : List Name} :
    tree.IsDirAt place ↔ ∃ mode, tree.statAt? place = some (.dir mode) := by
  constructor
  · rintro ⟨mode, entries, h⟩
    exact ⟨mode, by simp [statAt?, h, Node.stat]⟩
  · rintro ⟨mode, h⟩
    obtain ⟨node, hnode, hstat⟩ := Option.map_eq_some_iff.1 h
    cases node with
    | dir m entries => exact ⟨m, entries, hnode⟩
    | _ => simp [Node.stat] at hstat

/-- What lies above a file is a directory. -/
theorem isDirAt_of_at?_append {tree : FileTree} {xs ys : List Name} {node : Node}
    (h : tree.at? (xs ++ ys) = some node) (hne : ys ≠ []) : tree.IsDirAt xs := by
  rw [Node.at?_append] at h
  obtain ⟨mid, hmid, hrest⟩ := Option.bind_eq_some_iff.1 h
  obtain ⟨y, rest, rfl⟩ := List.exists_cons_of_ne_nil hne
  rw [Node.at?_cons] at hrest
  obtain ⟨child, hchild, -⟩ := Option.bind_eq_some_iff.1 hrest
  cases mid with
  | dir mode entries => exact ⟨mode, entries, hmid⟩
  | _ => simp [Node.child?] at hchild

theorem IsDirAt.above {tree : FileTree} {xs ys : List Name} (h : tree.IsDirAt (xs ++ ys)) :
    tree.IsDirAt xs := by
  obtain ⟨mode, entries, hd⟩ := h
  by_cases hne : ys = []
  · exact ⟨mode, entries, by simpa [hne] using hd⟩
  · exact isDirAt_of_at?_append hd hne

theorem isDirAt_root {tree : FileTree} {place : List Name} (h : tree.IsDirAt place) :
    tree.IsDirAt [] := by
  have h' : tree.IsDirAt ([] ++ place) := h
  exact h'.above

theorem IsDirAt.dropLast {tree : FileTree} {top names : List Name}
    (h : tree.IsDirAt (top ++ names)) : tree.IsDirAt (top ++ names.dropLast) := by
  rcases List.eq_nil_or_concat names with rfl | ⟨init, last, rfl⟩
  · exact h
  · rw [List.concat_eq_append, ← List.append_assoc] at h
    rw [List.concat_eq_append, List.dropLast_concat]
    exact h.above

theorem IsDirAt.not_symlink {tree : FileTree} {place : List Name} (h : tree.IsDirAt place) :
    ¬ tree.IsSymlinkAt place := by
  rintro ⟨text, ht⟩
  obtain ⟨mode, entries, hd⟩ := h
  simp [hd] at ht

theorem at?_concat {tree : FileTree} {place : List Name} {node : Node}
    (h : tree.at? place = some node) (name : Name) :
    tree.at? (place ++ [name]) = node.child? name := by
  rw [Node.at?_append, h, Option.bind_some, Node.at?_cons]
  cases node.child? name <;> simp

theorem wellNamed_dir {mode : Nat} {entries : List (Name × Node)}
    (h : ∀ e ∈ entries, PlainName e.1 ∧ FileTree.WellNamed e.2) :
    FileTree.WellNamed (.dir mode entries) := by
  intro place node hat name hname
  cases place with
  | nil => simp at hname
  | cons first rest =>
      rw [Node.at?_cons, Node.child?_dir] at hat
      obtain ⟨child, hchild, hrest⟩ := Option.bind_eq_some_iff.1 hat
      obtain ⟨before, after, rfl, -⟩ := List.lookup_eq_some_iff.1 hchild
      obtain ⟨hfirst, hbelow⟩ := h (first, child) (by simp)
      rcases List.mem_cons.1 hname with rfl | hname
      · exact hfirst
      · exact hbelow rest node hrest name hname

/-! ## Putting a file where none was -/

/-- A file with nothing below it. -/
def IsBare (node : Node) : Prop := ∀ name, node.child? name = none

theorem IsBare.at?_eq_none {node : Node} (h : IsBare node) {place : List Name}
    (hne : place ≠ []) : node.at? place = none := by
  obtain ⟨name, rest, rfl⟩ := List.exists_cons_of_ne_nil hne
  rw [Node.at?_cons, h name, Option.bind_none]

theorem IsBare.wellNamed {node : Node} (h : IsBare node) : FileTree.WellNamed node := by
  intro place found hat name hname
  rw [h.at?_eq_none (List.ne_nil_of_mem hname)] at hat
  simp at hat

theorem statAt?_put_above {tree : FileTree} {parent other : List Name} (h : tree.IsDirAt parent)
    (ho : other <+: parent) (name : Name) (new : Node) :
    statAt? (tree.put (parent ++ [name]) new) other = tree.statAt? other := by
  induction parent generalizing tree other with
  | nil =>
      obtain rfl : other = [] := List.prefix_nil.1 ho
      obtain ⟨mode, entries, hd⟩ := h
      obtain rfl : tree = .dir mode entries := by simpa using hd
      cases hl : entries.lookup name <;> simp [statAt?, Node.put, hl, Node.stat]
  | cons x xs ih =>
      obtain ⟨mode, entries, hd⟩ := h
      rw [Node.at?_cons] at hd
      obtain ⟨child, hc, hx⟩ := Option.bind_eq_some_iff.1 hd
      cases tree with
      | dir m es =>
          rw [Node.child?_dir] at hc
          cases other with
          | nil => simp [statAt?, Node.put, hc, Node.stat]
          | cons y ys =>
              obtain ⟨rfl, hys⟩ := List.cons_prefix_cons.1 ho
              have hdir : FileTree.IsDirAt child xs := ⟨mode, entries, hx⟩
              have hchild := ih hdir hys
              simp only [statAt?, List.cons_append, Node.put, hc, Node.at?_cons,
                Node.child?_dir, Node.lookup_putEntry_self, Option.bind_some]
              exact hchild
      | _ => simp [Node.child?] at hc

theorem at?_put_below {tree : FileTree} {parent : List Name} (h : tree.IsDirAt parent)
    (name : Name) (new : Node) (rest : List Name) :
    (tree.put (parent ++ [name]) new).at? (parent ++ [name] ++ rest) = new.at? rest := by
  obtain ⟨mode, entries, hd⟩ := h
  rw [Node.at?_append, Node.at?_put_self hd, Option.bind_some]

/-- A bare file put where none was is the one change. -/
theorem statAt?_put {tree : FileTree} {parent : List Name} {name : Name} {new : Node}
    (hdir : tree.IsDirAt parent) (hfree : tree.at? (parent ++ [name]) = none) (hnew : IsBare new)
    (place : List Name) :
    statAt? (tree.put (parent ++ [name]) new) place
      = if place = parent ++ [name] then some new.stat else tree.statAt? place := by
  by_cases hbelow : parent ++ [name] <+: place
  · obtain ⟨rest, rfl⟩ := hbelow
    rw [statAt?, at?_put_below hdir]
    by_cases hrest : rest = []
    · simp [hrest]
    · rw [hnew.at?_eq_none hrest, if_neg (by simpa using hrest), statAt?, Node.at?_append, hfree]
      rfl
  · have hne : place ≠ parent ++ [name] := fun heq => hbelow (heq ▸ List.prefix_rfl)
    rw [if_neg hne]
    by_cases hup : place <+: parent
    · exact statAt?_put_above hdir hup name new
    · have hoff : ¬ place <+: parent ++ [name] := fun hp =>
        (List.prefix_concat_iff.1 hp).elim hne hup
      rw [statAt?, Node.at?_put_of_ne hbelow hoff, statAt?]

/-- A bare file put where none was, into a directory at or below `top`, grows
the tree. -/
theorem grows_put {tree : FileTree} {top names : List Name} {name : Name} {new : Node}
    (hdir : tree.IsDirAt (top ++ names)) (hfree : tree.at? (top ++ names ++ [name]) = none)
    (hnew : IsBare new) (hplain : ∀ n ∈ names ++ [name], PlainName n) :
    tree.Grows top (tree.put (top ++ names ++ [name]) new) := by
  constructor
  · intro place s hs
    rw [statAt?_put hdir hfree hnew]
    split
    · rename_i hplace
      rw [hplace, statAt?_eq_none.2 hfree] at hs
      simp at hs
    · exact hs
  · intro place hnone hsome
    rw [statAt?_put hdir hfree hnew] at hsome
    split at hsome
    · rename_i hplace
      exact ⟨names ++ [name], by simp, hplain, by simp [hplace]⟩
    · exact absurd hnone hsome

end FileTree

/-! ## Files that stay -/

namespace FileTree.Keeps

variable {a b c : FileTree} {place : List Name}

theorem refl (tree : FileTree) : tree.Keeps tree := fun _ _ h => h

theorem trans (hab : a.Keeps b) (hbc : b.Keeps c) : a.Keeps c :=
  fun place s h => hbc place s (hab place s h)

theorem isDirAt (h : a.Keeps b) (hd : a.IsDirAt place) : b.IsDirAt place := by
  obtain ⟨mode, hm⟩ := isDirAt_iff.1 hd
  exact isDirAt_iff.2 ⟨mode, h place _ hm⟩

theorem at?_symlink (h : a.Keeps b) {text : Path} (hs : a.at? place = some (.symlink text)) :
    b.at? place = some (.symlink text) := by
  obtain ⟨node, hnode, hstat⟩ :=
    Option.map_eq_some_iff.1 (h place (.symlink text) (by simp [statAt?, hs, Node.stat]))
  cases node with
  | symlink t => simpa [Node.stat, hnode] using hstat
  | _ => simp [Node.stat] at hstat

theorem at?_not_symlink (h : a.Keeps b) {node : Node} (hs : a.at? place = some node)
    (hnode : node.isSymlink = false) :
    ∃ node', b.at? place = some node' ∧ node'.isSymlink = false := by
  obtain ⟨node', hnode', hstat⟩ :=
    Option.map_eq_some_iff.1 (h place node.stat (by simp [statAt?, hs]))
  refine ⟨node', hnode', ?_⟩
  cases node' with
  | symlink t => cases node <;> simp [Node.stat, Node.isSymlink] at hstat hnode
  | _ => rfl

end FileTree.Keeps

/-! ## The order of growth -/

namespace FileTree.Grows

variable {top : List Name} {a b c : FileTree}

theorem refl (top : List Name) (tree : FileTree) : tree.Grows top tree :=
  ⟨fun _ _ h => h, fun _ h h' => absurd h h'⟩

theorem trans (hab : a.Grows top b) (hbc : b.Grows top c) : a.Grows top c := by
  refine ⟨fun place s h => hbc.kept place s (hab.kept place s h), fun place ha hc => ?_⟩
  by_cases hb : b.statAt? place = none
  · exact hbc.below place hb hc
  · exact hab.below place ha hb

theorem keeps (h : a.Grows top b) : a.Keeps b := h.kept

theorem wellNamed (h : a.Grows top b) (hw : a.WellNamed) (htop : a.IsDirAt top) :
    b.WellNamed := by
  intro place node hnode name hname
  cases ha : a.at? place with
  | some old => exact hw place old ha name hname
  | none =>
      have hnone : a.statAt? place = none := statAt?_eq_none.2 ha
      have hsome : b.statAt? place ≠ none := by simp [statAt?, hnode]
      obtain ⟨rest, -, hplain, rfl⟩ := h.below place hnone hsome
      obtain ⟨mode, entries, hd⟩ := htop
      rcases List.mem_append.1 hname with hn | hn
      · exact hw top _ hd name hn
      · exact hplain name hn

end FileTree.Grows

end ContainerMounts
