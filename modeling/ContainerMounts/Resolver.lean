/-
ContainerMounts.Resolver — paths of a container, resolved below its root.

The container's root is a directory of the host, its `Rootfs`. A path is
resolved by walking its moves from there, with every symlink read as if
the root were `/`: an absolute link goes back to the root, and a move
above the root is refused. Once a name is missing, what follows it is
taken as written. At most `Rootfs.maxLinks` links are followed.

`Rootfs.resolve` follows a link in the last place, `Rootfs.resolveParent`
does not. `Rootfs.prepare` makes what is missing, and `Rootfs.pin` opens
the result once more in a way that no link can redirect, so that a path
changed in between is noticed.
-/
import ContainerMounts.Machine

namespace ContainerMounts

/-- A container's root, by its path on the host. -/
structure Rootfs where
  path : Path
  deriving DecidableEq, Repr

/-- A path of the container after resolution. -/
structure ResolvedPath where
  rootfs : Rootfs
  /-- The names from the root. -/
  names : List Name
  /-- How many of the names exist, if not all do. -/
  firstMissing : Option Nat
  deriving DecidableEq, Repr

namespace Rootfs

/-- The path on the host of these names below the root. -/
def hostPath (rootfs : Rootfs) (names : List Name) : Path := rootfs.path.joinNames names

end Rootfs

namespace ResolvedPath

/-- The path on the host. -/
def hostPath (r : ResolvedPath) : Path := r.rootfs.hostPath r.names

/-- The path as the container sees it. -/
def containerPath (r : ResolvedPath) : Path := Path.ofNames r.names

/-- Every name exists. -/
def exists? (r : ResolvedPath) : Bool := r.firstMissing.isNone

end ResolvedPath

namespace Rootfs

/-! ## Resolution -/

/-- The names that lead to the path, and how many of them exist if not all
do. -/
abbrev Walked := List Name × Option Nat

/-- The target would leave the root. -/
def escape (target : Path) (reason : String) : Error := .pathEscape target.display reason

/-- The count of existing names after a move up to `names`: a missing name
that was taken back is missed no longer. -/
def stillMissing (missing : Option Nat) (names : List Name) : Option Nat :=
  missing.filter fun i => i < names.length

/-- A walk by the moves, after the names of `walked`. A link to be followed
is handed to `jump`, with the names to go on from and the moves to go on
with. -/
def walkVia (rootfs : Rootfs) (tree : FileTree) (target : Path) (followLast : Bool)
    (jump : List Name → List Step → Except Error Walked) :
    Walked → List Step → Except Error Walked
  | walked, [] => .ok walked
  | (names, missing), .up :: rest =>
      if names = [] then .error (escape target "symlink climbs above the container root")
      else
        walkVia rootfs tree target followLast jump
          (names.dropLast, stillMissing missing names.dropLast) rest
  | (names, some i), .down name :: rest =>
      walkVia rootfs tree target followLast jump (names ++ [name], some i) rest
  | (names, none), .down name :: rest =>
      match tree.lstat ((rootfs.hostPath names).join ⟨name⟩) with
      | .error fault =>
          if fault = .os .noEntry then
            walkVia rootfs tree target followLast jump (names ++ [name], some names.length) rest
          else .error (.io fault)
      | .ok (.symlink text) =>
          if followLast || !rest.isEmpty then
            jump (if text.isAbsolute then [] else names) (text.steps ++ rest)
          else walkVia rootfs tree target followLast jump (names ++ [name], none) rest
      | .ok node =>
          if rest.isEmpty || node.isDir then
            walkVia rootfs tree target followLast jump (names ++ [name], none) rest
          else .error (.ofErrno .notDirectory)

/-- A walk that follows at most `links` links. -/
def walk (rootfs : Rootfs) (tree : FileTree) (target : Path) (followLast : Bool) :
    (links : Nat) → List Name → List Step → Except Error Walked
  | 0, names, steps =>
      walkVia rootfs tree target followLast
        (fun _ _ => .error (escape target "too many levels of symbolic links"))
        (names, none) steps
  | links + 1, names, steps =>
      walkVia rootfs tree target followLast (walk rootfs tree target followLast links)
        (names, none) steps

/-- The number of links that one resolution follows. -/
def maxLinks : Nat := 40

/-- The target after resolution. -/
def resolveWith (rootfs : Rootfs) (tree : FileTree) (target : Path) (followLast : Bool) :
    Except Error ResolvedPath := do
  let (names, firstMissing) ← rootfs.walk tree target followLast maxLinks [] target.steps
  return { rootfs, names, firstMissing }

/-- The target after resolution, with every symlink followed. -/
def resolve (rootfs : Rootfs) (tree : FileTree) (target : Path) : Except Error ResolvedPath :=
  rootfs.resolveWith tree target true

/-- The target after resolution, with a symlink in the last place kept. -/
def resolveParent (rootfs : Rootfs) (tree : FileTree) (target : Path) :
    Except Error ResolvedPath :=
  rootfs.resolveWith tree target false

/-! ## Preparation -/

/-- Permissions of the directories made on the way to a mount point. -/
def dirMode : Nat := 0o755

/-- Permissions of the files made as mount points. -/
def fileMode : Nat := 0o644

/-- A directory at the path, unless something is there already. -/
def ensureDir (path : Path) : Run Unit := do
  match ← Run.change? (·.makeDir path dirMode) with
  | none => return ()
  | some fault => if fault = .os .alreadyExists then return () else throw (.io fault)

/-- The last name of a mount point. -/
def ensurePlaceholder (placeholder : Placeholder) (path : Path) : Run Unit :=
  match placeholder with
  | .directory => ensureDir path
  | .file => do
      match ← Run.change? (·.makeFile path fileMode) with
      | none => return ()
      | some fault => throw (.io fault)
  | .parentOnly => return ()

/-- The names below a path, made from the first to the last. -/
def makeNames (placeholder : Placeholder) : Path → List Name → Run Unit
  | _, [] => return ()
  | above, [last] => ensurePlaceholder placeholder (above.join ⟨last⟩)
  | above, name :: rest => do
      ensureDir (above.join ⟨name⟩)
      makeNames placeholder (above.join ⟨name⟩) rest

/-- What is missing of a resolved path, made. -/
def makeMissing (placeholder : Placeholder) (resolved : ResolvedPath) : Run Unit :=
  match resolved.firstMissing with
  | none => return ()
  | some i =>
      makeNames placeholder (resolved.rootfs.hostPath (resolved.names.take i))
        (resolved.names.drop i)

/-- The target after resolution, with what is missing of it made. A
placeholder of parents only stands for a link, which is not followed. -/
def prepare (rootfs : Rootfs) (target : Path) (placeholder : Placeholder) :
    Run ResolvedPath := do
  let tree ← Run.tree
  let resolved ← Run.lift (rootfs.resolveWith tree target (placeholder ≠ .parentOnly))
  makeMissing placeholder resolved
  return resolved

/-! ## Pinning -/

/-- A request to open the names below the root: the place of the file, or the
number it was refused with. A name with a NUL byte never reaches the
kernel. -/
def openTarget (top : List Name) (names : List Name) : Run (Except Errno (List Name)) := do
  if names.any (·.contains 0) then return .error .invalid
  match ← Run.attempt .openat2 with
  | some e => return .error e
  | none => return (← Run.tree).openBeneath top names

/-- The resolved path as a target for mount calls: the file itself, held
open, or the plain path on a kernel that cannot open it safely. -/
def pin (rootfs : Rootfs) (resolved : ResolvedPath) : Run Spot := do
  match (← Run.tree).openDir rootfs.path with
  | .error e => throw (.mount "open rootfs" rootfs.path (.os e))
  | .ok top =>
      match ← openTarget top resolved.names with
      | .ok place => return .held (Path.ofNames place)
      | .error e =>
          if e = .notImplemented then return .at resolved.hostPath
          else if e = .loop then
            throw (escape resolved.containerPath "path changed between resolution and mount")
          else throw (.mount "openat2" resolved.hostPath (.os e))

end Rootfs

end ContainerMounts
