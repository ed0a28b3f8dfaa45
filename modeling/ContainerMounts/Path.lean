/-
ContainerMounts.Path — file paths as byte strings, read by component.

A path is any byte string. Its `components` forget repeated separators,
`.` parts other than a leading one and a trailing separator, and keep
`..`, since what `..` means depends on the links in the tree. Two paths
are the same place on paper when their components agree (`Path.same`),
and one lies under another when its components extend the other's
(`Path.under`); neither compares bytes.

Main statements: an absolute path swallows what it is joined to
(`join_absolute`), and the two comparisons are those of the components
(`same_iff`, `under_iff`).
-/
import ContainerMounts.Text.Pieces
import ContainerMounts.Text.Utf8

namespace ContainerMounts

/-- A single name in a directory: any bytes but the separator and NUL. -/
abbrev Name := List UInt8

/-- The separator `/`. -/
def slash : UInt8 := 0x2F

/-- The name `.`. -/
def dotName : Name := [0x2E]

/-- The name `..`. -/
def dotDotName : Name := [0x2E, 0x2E]

/-- A path, as the bytes that were written. -/
structure Path where
  bytes : List UInt8
  deriving DecidableEq, Repr, Inhabited

/-- What a part of a path stands for. -/
inductive Component where
  /-- The root, at the start of an absolute path. -/
  | root
  /-- A leading `.` of a relative path. -/
  | current
  /-- A part `..`. -/
  | parent
  /-- Any other name. -/
  | normal (name : Name)
  deriving DecidableEq, Repr

/-- One move of a walk through directories. -/
inductive Step where
  /-- To the parent directory. -/
  | up
  /-- To the entry of that name. -/
  | down (name : Name)
  deriving DecidableEq, Repr

/-- The component that a piece between separators stands for, if it
counts. -/
def Component.ofPiece? (piece : Name) : Option Component :=
  if piece = [] ∨ piece = dotName then none
  else if piece = dotDotName then some .parent
  else some (.normal piece)

namespace Path

/-- The path written as this text. -/
def ofString (text : String) : Path := ⟨Utf8.encode text.toList⟩

/-- The path `/`. -/
def root : Path := ⟨[slash]⟩

/-- Whether the path starts at the root. -/
def isAbsolute (p : Path) : Bool := p.bytes.head? == some slash

/-- The pieces between separators, empty ones included. -/
def parts (p : Path) : List Name := pieces slash p.bytes

/-- The path by component. -/
def components (p : Path) : List Component :=
  let body := p.parts.filterMap Component.ofPiece?
  if p.isAbsolute then .root :: body
  else if p.parts.head? = some dotName then .current :: body
  else body

/-- The moves that a component asks for; the root and `.` ask for none. -/
def stepOf? : Component → Option Step
  | .root => none
  | .current => none
  | .parent => some .up
  | .normal name => some (.down name)

/-- The moves that the path asks for, from wherever it starts. -/
def steps (p : Path) : List Step := p.components.filterMap stepOf?

/-- The names that the path goes down to, one after the other. -/
def names (p : Path) : List Name :=
  p.steps.filterMap fun
    | .down name => some name
    | .up => none

/-- The number of plain names in the path. -/
def depth (p : Path) : Nat :=
  p.components.countP fun
    | .normal _ => true
    | _ => false

/-- Both paths have the same components. -/
def same (p q : Path) : Bool := p.components == q.components

/-- The components of `p` extend those of `q`. -/
def under (p q : Path) : Bool := q.components.isPrefixOf p.components

/-- The path `q` as seen from the directory `p`. An absolute `q` stands
for itself; otherwise one separator goes between, if `p` does not end in
one. -/
def join (p q : Path) : Path :=
  if q.isAbsolute then q
  else if p.bytes.isEmpty || p.bytes.getLast? == some slash then ⟨p.bytes ++ q.bytes⟩
  else ⟨p.bytes ++ slash :: q.bytes⟩

/-- The path `p` followed by the names. -/
def joinNames (p : Path) (names : List Name) : Path :=
  names.foldl (fun acc name => acc.join ⟨name⟩) p

/-- The absolute path with these names below the root. -/
def ofNames (names : List Name) : Path := root.joinNames names

/-- The path as text, if its bytes are UTF-8. -/
def text? (p : Path) : Option String := Utf8.text? p.bytes

/-- The path as it is shown in messages. -/
def display (p : Path) : String := Utf8.lossy p.bytes

/-- The position of the first NUL byte, which no argument of a system call
can carry. -/
def nulPosition? (p : Path) : Option Nat := p.bytes.findIdx? (· == 0)

theorem join_absolute {p q : Path} (h : q.isAbsolute = true) : p.join q = q := by
  simp [join, h]

theorem same_refl (p : Path) : p.same p = true := by
  simp [same]

theorem same_iff {p q : Path} : p.same q = true ↔ p.components = q.components := by
  simp [same]

theorem under_iff {p q : Path} : p.under q = true ↔ q.components <+: p.components := by
  simp [under]

end Path

end ContainerMounts
