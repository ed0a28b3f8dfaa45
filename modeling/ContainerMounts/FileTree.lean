/-
ContainerMounts.FileTree — a tree of files as a value.

A `Node` is a directory with its entries, a file with its content, a
symlink with its text or one of the special files. A tree is the node at
its root, and the list of names that lead from the root to a node is its
place; `Node.at?` reads a place and `Node.put` writes one. Neither
follows symlinks: that is `FileTree.Lookup`.

Main statements: what was put is found again (`at?_put_self`), and no
place off the way to it changes (`at?_put_of_ne`).
-/
import ContainerMounts.Path

namespace ContainerMounts

/-- A file of any type. -/
inductive Node where
  /-- A directory, with its permission bits. -/
  | dir (mode : Nat) (entries : List (Name × Node))
  /-- A regular file, with its permission bits. -/
  | file (mode : Nat) (content : List UInt8)
  /-- A symlink, with the path it holds. -/
  | symlink (text : Path)
  | fifo
  | socket
  | charDevice
  | blockDevice

/-- A tree, given by the node at its root. -/
abbrev FileTree := Node

/-- What is known about a node without looking into it: its type, its
permission bits, and what it holds itself. -/
inductive Stat where
  | dir (mode : Nat)
  | file (mode : Nat) (content : List UInt8)
  | symlink (text : Path)
  | fifo
  | socket
  | charDevice
  | blockDevice
  deriving DecidableEq, Repr

namespace Node

instance : Inhabited Node := ⟨.fifo⟩

/-- What is known about the node without looking into it. -/
def stat : Node → Stat
  | .dir mode _ => .dir mode
  | .file mode content => .file mode content
  | .symlink text => .symlink text
  | .fifo => .fifo
  | .socket => .socket
  | .charDevice => .charDevice
  | .blockDevice => .blockDevice

/-- The node is a directory. -/
def isDir : Node → Bool
  | .dir .. => true
  | _ => false

/-- The node is a symlink. -/
def isSymlink : Node → Bool
  | .symlink _ => true
  | _ => false

/-- The entry of that name, if the node is a directory that has one. -/
def child? (n : Node) (name : Name) : Option Node :=
  match n with
  | .dir _ entries => entries.lookup name
  | _ => none

/-- The node at a place below this one. -/
def at? : Node → List Name → Option Node
  | n, [] => some n
  | n, name :: rest =>
      match n.child? name with
      | some child => child.at? rest
      | none => none

/-- The entries with `child` under `name`: in the place of the entry of that
name, or at the end. -/
def putEntry (name : Name) (child : Node) : List (Name × Node) → List (Name × Node)
  | [] => [(name, child)]
  | (n, c) :: rest =>
      if n = name then (n, child) :: rest else (n, c) :: putEntry name child rest

/-- The tree with `new` at the place, whose parent has to be a directory of
the tree; otherwise the tree as it is. -/
def put : Node → List Name → Node → Node
  | _, [], new => new
  | .dir mode entries, name :: rest, new =>
      match entries.lookup name with
      | some child => .dir mode (putEntry name (child.put rest new) entries)
      | none =>
          match rest with
          | [] => .dir mode (putEntry name new entries)
          | _ :: _ => .dir mode entries
  | n, _ :: _, _ => n

/-! ## Entries -/

theorem lookup_putEntry_self (name : Name) (child : Node) (entries : List (Name × Node)) :
    (putEntry name child entries).lookup name = some child := by
  induction entries with
  | nil => simp [putEntry]
  | cons e rest ih =>
      obtain ⟨n, c⟩ := e
      by_cases h : n = name
      · simp [putEntry, h]
      · have h' : (name == n) = false := by simp [Ne.symm h]
        simp [putEntry, h, List.lookup_cons, h', ih]

theorem lookup_putEntry_of_ne {name other : Name} (h : other ≠ name) (child : Node)
    (entries : List (Name × Node)) :
    (putEntry name child entries).lookup other = entries.lookup other := by
  induction entries with
  | nil =>
      have h' : (other == name) = false := by simp [h]
      simp [putEntry, List.lookup_cons, h']
  | cons e rest ih =>
      obtain ⟨n, c⟩ := e
      by_cases hn : n = name
      · subst hn
        have h' : (other == n) = false := by simp [h]
        simp [putEntry, List.lookup_cons, h']
      · simp only [putEntry, hn, if_false, List.lookup_cons]
        split
        · rfl
        · exact ih

/-! ## Places -/

@[simp] theorem at?_nil (n : Node) : n.at? [] = some n := by
  cases n <;> rfl

theorem at?_cons (n : Node) (name : Name) (rest : List Name) :
    n.at? (name :: rest) = (n.child? name).bind (·.at? rest) := by
  simp only [at?]
  cases n.child? name <;> rfl

theorem at?_append (n : Node) (xs ys : List Name) :
    n.at? (xs ++ ys) = (n.at? xs).bind (·.at? ys) := by
  induction xs generalizing n with
  | nil => simp
  | cons x xs ih =>
      simp only [List.cons_append, at?_cons]
      cases n.child? x with
      | none => rfl
      | some child => simp [ih]

theorem child?_dir (mode : Nat) (entries : List (Name × Node)) (name : Name) :
    (Node.dir mode entries).child? name = entries.lookup name := rfl

/-- What was put into a directory of the tree is found there. -/
theorem at?_put_self {tree : Node} {parent : List Name} {mode : Nat}
    {entries : List (Name × Node)} (h : tree.at? parent = some (.dir mode entries))
    (name : Name) (new : Node) :
    (tree.put (parent ++ [name]) new).at? (parent ++ [name]) = some new := by
  induction parent generalizing tree with
  | nil =>
      obtain rfl : tree = .dir mode entries := by simpa using h
      cases hl : entries.lookup name <;>
        simp [put, hl, at?_cons, child?_dir, lookup_putEntry_self]
  | cons x xs ih =>
      rw [at?_cons] at h
      obtain ⟨child, hc, hx⟩ := Option.bind_eq_some_iff.1 h
      cases tree with
      | dir m es =>
          rw [child?_dir] at hc
          simp only [List.cons_append, put, hc, at?_cons, child?_dir, lookup_putEntry_self,
            Option.bind_some]
          exact ih hx
      | _ => simp [child?] at hc

/-- Nothing changes at a place that is neither on the way to the new node nor
below it. -/
theorem at?_put_of_ne {place other : List Name} (hp : ¬ place <+: other) (ho : ¬ other <+: place)
    (tree new : Node) : (tree.put place new).at? other = tree.at? other := by
  induction place generalizing tree other with
  | nil => exact absurd List.nil_prefix hp
  | cons x xs ih =>
      cases other with
      | nil => exact absurd List.nil_prefix ho
      | cons y ys =>
          cases tree with
          | dir m es =>
              by_cases hxy : y = x
              · subst hxy
                have hp' : ¬ xs <+: ys := by simpa [List.cons_prefix_cons] using hp
                have ho' : ¬ ys <+: xs := by simpa [List.cons_prefix_cons] using ho
                cases hl : es.lookup y with
                | some child =>
                    simp [put, hl, at?_cons, child?_dir, lookup_putEntry_self, ih hp' ho']
                | none =>
                    cases xs with
                    | nil => exact absurd List.nil_prefix hp'
                    | cons _ _ => simp [put, hl]
              · have hne := fun child => lookup_putEntry_of_ne hxy child es
                cases hl : es.lookup x with
                | some child => simp [put, hl, at?_cons, child?_dir, hne]
                | none => cases xs <;> simp [put, hl, at?_cons, child?_dir, hne]
          | _ => rfl

end Node

end ContainerMounts
