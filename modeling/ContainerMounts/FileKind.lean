/-
ContainerMounts.FileKind — the types of files that can be bound.

A bind of a directory or a regular file can take every option. A special
file (a device, a FIFO or a socket) has no tree below it, so what an
option list asks of the mounts below is narrowed to the one mount
(`MountOptions.restrictedTo`), and what was narrowed is reported
(`MountOptions.narrowedBy`).
-/
import ContainerMounts.FileTree
import ContainerMounts.Options

namespace ContainerMounts

/-- The type of a bind source. -/
inductive FileKind where
  | directory
  | regular
  | charDevice
  | blockDevice
  | fifo
  | socket
  deriving DecidableEq, Repr

/-- What to make where a mount point is missing. -/
inductive Placeholder where
  | directory
  /-- An empty regular file. -/
  | file
  /-- Nothing but the directories on the way. -/
  | parentOnly
  deriving DecidableEq, Repr

namespace FileKind

/-- The word for the kind. -/
def name : FileKind → String
  | directory => "directory"
  | regular => "regular"
  | charDevice => "char-device"
  | blockDevice => "block-device"
  | fifo => "fifo"
  | socket => "socket"

/-- The word for the kind in the log. -/
def logName : FileKind → String
  | directory => "Directory"
  | regular => "Regular"
  | charDevice => "CharDevice"
  | blockDevice => "BlockDevice"
  | fifo => "Fifo"
  | socket => "Socket"

/-- The kind of the node; a symlink has none, since it is resolved first. -/
def ofNode? : Node → Option FileKind
  | .dir .. => some directory
  | .file .. => some regular
  | .symlink _ => none
  | .fifo => some fifo
  | .socket => some socket
  | .charDevice => some charDevice
  | .blockDevice => some blockDevice

/-- Neither a directory nor a regular file. -/
def isSpecial : FileKind → Bool
  | directory | regular => false
  | charDevice | blockDevice | fifo | socket => true

/-- What to make as the mount point. All but directories are bound over an
empty file, which then shows the source's own type. -/
def placeholder : FileKind → Placeholder
  | directory => .directory
  | _ => .file

end FileKind

namespace MountOptions

/-- The options as far as a bind of this kind can honour them. For a special
file the recursive forms become those for one mount. -/
def restrictedTo (kind : FileKind) (o : MountOptions) : MountOptions :=
  if kind.isSpecial then
    { o with
      bind := .bind
      access := if o.isRecursiveReadonly then .readOnly else o.access
      idmap := if o.idmap = .ridmap then .idmap else o.idmap }
  else o

/-- The words that the restriction narrows. -/
def narrowedBy (kind : FileKind) (o : MountOptions) : List String :=
  if kind.isSpecial then
    (if o.bind = .rbind then ["rbind"] else [])
      ++ (if o.isRecursiveReadonly then ["rro"] else [])
      ++ (if o.idmap = .ridmap then ["ridmap"] else [])
  else []

end MountOptions

end ContainerMounts
