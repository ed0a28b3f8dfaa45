/-
ContainerMounts.FileTree.Lookup — paths looked up the way the kernel does.

A lookup walks from a directory by the moves of a path. A symlink on the
way is replaced by the moves of its text, at most `linkLimit` times; the
last name is followed only if asked. Every move needs a directory to
start from, so a trailing separator, which moves nowhere, asks for one.
The kernel refuses a path that is empty or too long before it looks at
any file (`accept`).

On top of `walk` stand the file operations of a mount setup: reading
(`lstat`, `stat`, `readLink`, `realPath`, `readText`, `list`), making
(`makeDir`, `makeLink`, `makeFile`) and `openBeneath`, which opens a file
below a root and refuses every symlink.
-/
import ContainerMounts.Error
import ContainerMounts.FileTree

namespace ContainerMounts

/-- A move of the kernel's walk. -/
inductive Move where
  /-- Stay, but only in a directory. -/
  | stay
  /-- To the parent directory; the root is its own parent. -/
  | up
  /-- To the entry of that name. -/
  | down (name : Name)
  deriving DecidableEq, Repr

/-- The move that a piece between separators asks for. -/
def Move.ofPiece? (piece : Name) : Option Move :=
  if piece = [] then none
  else if piece = dotName then some .stay
  else if piece = dotDotName then some .up
  else some (.down piece)

/-- The moves that the whole path asks for. -/
def Path.moves (p : Path) : List Move :=
  p.parts.filterMap Move.ofPiece? ++ (if p.bytes.getLast? = some slash then [.stay] else [])

/-- The order in which a filesystem lists the names of a directory. It leaves
none out and lists none twice. -/
structure ListingOrder where
  arrange : List Name → List Name
  perm (names : List Name) : (arrange names).Perm names

/-- Names are listed as they were added. -/
def ListingOrder.asAdded : ListingOrder := ⟨id, fun names => .refl names⟩

namespace FileTree

/-- The longest name a directory can hold, in bytes. -/
def nameLimit : Nat := 255

/-- The longest path that a call takes, in bytes. -/
def pathLimit : Nat := 4095

/-- The number of symlinks that one lookup follows. -/
def linkLimit : Nat := 40

/-- The rules of a walk. -/
structure WalkRules where
  /-- A symlink in the last place is followed. -/
  followLast : Bool
  /-- The longest path to a place on the way, in bytes; the kernel, which
  writes no path down, has none. -/
  reach : Option Nat := none
  deriving DecidableEq, Repr

/-- The move leads to a place whose path is too long. -/
def WalkRules.tooFar (rules : WalkRules) (here : List Name) (move : Move) : Bool :=
  match rules.reach, move with
  | some limit, .down name => limit < (Path.ofNames (here ++ [name])).bytes.length
  | _, _ => false

/-- A walk by the moves, from the directory at `here`. What happens at a
symlink that is to be followed is left to `jump`, which gets the place to
go on from and the moves to go on with. -/
def walkVia (tree : FileTree) (rules : WalkRules)
    (jump : List Name → List Move → Except Errno (List Name)) :
    List Name → List Move → Except Errno (List Name)
  | here, [] => .ok here
  | here, move :: rest =>
      if rules.tooFar here move then .error .nameTooLong
      else
        match tree.at? here with
        | none => .error .noEntry
        | some node =>
            if node.isDir then
              match move with
              | .stay => walkVia tree rules jump here rest
              | .up => walkVia tree rules jump here.dropLast rest
              | .down name =>
                  if nameLimit < name.length then .error .nameTooLong
                  else
                    match node.child? name with
                    | none => .error .noEntry
                    | some (.symlink text) =>
                        if rest.isEmpty && !rules.followLast then .ok (here ++ [name])
                        else jump (if text.isAbsolute then [] else here) (text.moves ++ rest)
                    | some _ => walkVia tree rules jump (here ++ [name]) rest
            else .error .notDirectory

/-- A walk that follows at most `links` symlinks. -/
def walk (tree : FileTree) (rules : WalkRules) :
    (links : Nat) → List Name → List Move → Except Errno (List Name)
  | 0 => walkVia tree rules fun _ _ => .error .loop
  | links + 1 => walkVia tree rules (walk tree rules links)

/-- What the kernel says to a path before it looks at any file. -/
def accept (p : Path) : Except Errno Unit :=
  if p.bytes.isEmpty then .error .noEntry
  else if pathLimit < p.bytes.length then .error .nameTooLong
  else .ok ()

/-- The place that the path names. Relative paths start at the root. -/
def locate (tree : FileTree) (followLast : Bool) (p : Path) : Except Errno (List Name) := do
  accept p
  walk tree { followLast } linkLimit [] p.moves

/-- The place that the path names, for a file operation: a path with a NUL
byte never reaches the kernel. -/
def find (tree : FileTree) (followLast : Bool) (p : Path) : Except Fault (List Name) :=
  if p.bytes.contains 0 then .error .nulInName
  else (tree.locate followLast p).mapError .os

/-- The node that the path names. -/
def findNode (tree : FileTree) (followLast : Bool) (p : Path) : Except Fault Node := do
  match tree.at? (← tree.find followLast p) with
  | some node => .ok node
  | none => .error (.os .noEntry)

/-! ## Reading -/

/-- The node that the path names, not followed if it is a symlink. -/
def lstat (tree : FileTree) (p : Path) : Except Fault Node := tree.findNode false p

/-- The node that the path leads to. -/
def stat (tree : FileTree) (p : Path) : Except Fault Node := tree.findNode true p

/-- The node that a call at the spot acts on. A file that is held open is not
looked up again. -/
def nodeAt (tree : FileTree) : Spot → Except Fault Node
  | .at p => tree.stat p
  | .held real =>
      match tree.at? real.names with
      | some node => .ok node
      | none => .error (.os .noEntry)

/-- The path leads to a node. -/
def exists? (tree : FileTree) (p : Path) : Bool :=
  match tree.stat p with
  | .ok _ => true
  | .error _ => false

/-- The text of the symlink that the path names. -/
def readLink (tree : FileTree) (p : Path) : Except Fault Path := do
  match ← tree.lstat p with
  | .symlink text => .ok text
  | _ => .error (.os .invalid)

/-- The place that the path leads to, when every link is read and every path
on the way is tried. It is not the given path that may be too long, but one
that is tried. -/
def trace (tree : FileTree) (p : Path) : Except Errno (List Name) :=
  if p.bytes.isEmpty then .error .noEntry
  else walk tree { followLast := true, reach := some pathLimit } linkLimit [] p.moves

/-- The path of the node that the path leads to, free of symlinks. -/
def realPath (tree : FileTree) (p : Path) : Except Fault Path :=
  if p.bytes.contains 0 then .error .nulInName
  else ((tree.trace p).map Path.ofNames).mapError .os

/-- The content of the file that the path leads to. -/
def readBytes (tree : FileTree) (p : Path) : Except Fault (List UInt8) := do
  match ← tree.stat p with
  | .file _ content => .ok content
  | .dir .. => .error (.os .isDirectory)
  | .socket => .error (.os .noDevice)
  | _ => .ok []

/-- The text of the file that the path leads to. -/
def readText (tree : FileTree) (p : Path) : Except Fault String := do
  match Utf8.text? (← tree.readBytes p) with
  | some text => .ok text
  | none => .error .notUtf8

/-- The names of a directory's entries, each once. -/
def entryNames (order : ListingOrder) (entries : List (Name × Node)) : List Name :=
  order.arrange (entries.map (·.1)).eraseDups

/-- The entries of the directory that the path leads to, in the order of the
host. -/
def list (tree : FileTree) (order : ListingOrder) (p : Path) :
    Except Fault (List (Name × Node)) := do
  match ← tree.stat p with
  | .dir _ entries =>
      .ok ((entryNames order entries).filterMap fun name =>
        (entries.lookup name).map fun node => (name, node))
  | _ => .error (.os .notDirectory)

/-! ## Making -/

/-- The directory at the place, with a new entry. -/
def addEntry (tree : FileTree) (parent : List Name) (name : Name) (node : Node) :
    Except Errno FileTree :=
  match tree.at? parent with
  | none => .error .noEntry
  | some dir =>
      if !dir.isDir then .error .notDirectory
      else if nameLimit < name.length then .error .nameTooLong
      else
        match dir.child? name with
        | some _ => .error .alreadyExists
        | none => .ok (tree.put (parent ++ [name]) node)

/-- The tree with `node` at the path, where nothing may be yet. -/
def make (tree : FileTree) (p : Path) (node : Node) : Except Errno FileTree := do
  accept p
  match p.moves.getLast? with
  | some (.down name) =>
      let parent ← walk tree { followLast := true } linkLimit [] p.moves.dropLast
      tree.addEntry parent name node
  | _ =>
      let _ ← tree.locate true p
      .error .alreadyExists

/-- The tree with a new directory at the path. -/
def makeDir (tree : FileTree) (p : Path) (mode : Nat) : Except Fault FileTree :=
  if p.bytes.contains 0 then .error .nulInName
  else (tree.make p (.dir mode [])).mapError .os

/-- The tree with a new symlink to `text` at the path. -/
def makeLink (tree : FileTree) (text p : Path) : Except Fault FileTree :=
  if text.bytes.contains 0 || p.bytes.contains 0 then .error .nulInName
  else
    (do
      accept text
      tree.make p (.symlink text)).mapError .os

/-- The tree with a file at the path: an existing one as it is, otherwise a
new empty one. -/
def makeFile (tree : FileTree) (p : Path) (mode : Nat) : Except Fault FileTree :=
  if p.bytes.contains 0 then .error .nulInName
  else
    match tree.locate true p with
    | .ok place =>
        match tree.at? place with
        | some (.dir ..) => .error (.os .isDirectory)
        | some .socket => .error (.os .noDevice)
        | _ => .ok tree
    | .error e =>
        if e = .noEntry then (tree.make p (.file mode [])).mapError .os
        else .error (.os e)

/-! ## Opening below a root -/

/-- The place of the directory that the path leads to. -/
def openDir (tree : FileTree) (p : Path) : Except Errno (List Name) :=
  if p.bytes.contains 0 then .error .invalid
  else do
    let place ← tree.locate true p
    match tree.at? place with
    | some (.dir ..) => .ok place
    | _ => .error .notDirectory

/-- A walk down by the names that refuses every symlink. -/
def descend (tree : FileTree) : List Name → List Name → Except Errno (List Name)
  | here, [] => .ok here
  | here, name :: rest =>
      match tree.at? here with
      | some (.dir _ entries) =>
          if nameLimit < name.length then .error .nameTooLong
          else
            match entries.lookup name with
            | none => .error .noEntry
            | some (.symlink _) => .error .loop
            | some _ => descend tree (here ++ [name]) rest
      | some _ => .error .notDirectory
      | none => .error .noEntry

/-- The place of the file reached from the directory at `top` by the names,
where no symlink is allowed. -/
def openBeneath (tree : FileTree) (top : List Name) (names : List Name) :
    Except Errno (List Name) := do
  accept (Path.ofNames names)
  tree.descend top names

end FileTree

end ContainerMounts
