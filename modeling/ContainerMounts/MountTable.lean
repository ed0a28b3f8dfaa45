/-
ContainerMounts.MountTable — the kernel's table of mounts.

A `MountRecord` is one mount as the kernel reports it. In a table, which
lists mounts in the order they were made, `MountTable.enclosing` is the
mount that a path lives on: the one with the longest target above the
path, and of several on one target the latest.
-/
import ContainerMounts.Path

namespace ContainerMounts

/-- A mount, as the kernel reports it. Option sets are sorted and hold each
option once. -/
structure MountRecord where
  /-- Where the mount is. -/
  target : Path
  fsType : String
  /-- What was mounted, in the filesystem's words. -/
  source : String
  /-- Options of the mount itself. -/
  vfsOptions : List String
  /-- Options of the filesystem behind it. -/
  fsOptions : List String
  deriving DecidableEq, Repr

namespace MountRecord

/-- The options as a set: sorted, each once, without empty ones. -/
def optionSet (options : List String) : List String :=
  (options.filter (!·.isEmpty)).eraseDups.mergeSort fun a b => decide (a ≤ b)

/-- The mount has the option. -/
def hasOption (r : MountRecord) (option : String) : Bool := r.vfsOptions.contains option

/-- The mount cannot be written through. -/
def isReadonly (r : MountRecord) : Bool := r.hasOption "ro"

/-- The number of components of the target. -/
def depth (r : MountRecord) : Nat := r.target.components.length

end MountRecord

/-- The mounts in the order they were made. -/
abbrev MountTable := List MountRecord

namespace MountTable

/-- The better of the best mount so far and a later one. -/
def better (best : Option MountRecord) (r : MountRecord) : Option MountRecord :=
  match best with
  | none => some r
  | some b => if b.depth ≤ r.depth then some r else some b

/-- The mount that the path lives on. -/
def enclosing (table : MountTable) (path : Path) : Option MountRecord :=
  table.foldl (fun best r => if path.under r.target then better best r else best) none

/-- A mount sits on exactly this path. -/
def isMountPoint (table : MountTable) (path : Path) : Bool :=
  match table.enclosing path with
  | some r => r.target.same path
  | none => false

end MountTable

end ContainerMounts
