/-
ContainerMounts.Options.Flags — the flag words that options ask for.

`MountOptions.flags` and `MountOptions.attrs` are one request in the two
encodings; `MountOptions.relaxed` and `MountOptions.clearedAttrs` hold
what an option list opens explicitly, which is what a remount has to
clear.
-/
import ContainerMounts.Flags
import ContainerMounts.Options

namespace ContainerMounts

namespace AtimeMode

/-- The flag of the mode. -/
def flag : AtimeMode → MountFlags
  | unset => .none
  | relatime => .relatime
  | strictatime => .strictatime
  | noatime => .noatime

/-- The value of the access-time field for the mode. -/
def attr : AtimeMode → MountAttrs
  | unset => .none
  | relatime => .relatime
  | strictatime => .strictatime
  | noatime => .noatime

end AtimeMode

/-- The flag of the mode. -/
def SyncMode.flag : SyncMode → MountFlags
  | unset => .none
  | sync => .synchronous
  | dirsync => .dirsync

/-- The flags of a propagation change. -/
def Propagation.flags (p : Propagation) : MountFlags :=
  let mode := match p.mode with
    | .privately => MountFlags.privately
    | .shared => MountFlags.shared
    | .slave => MountFlags.slave
    | .unbindable => MountFlags.unbindable
  if p.recursive then mode ||| MountFlags.recursive else mode

namespace MountOptions

/-- The flags that the options ask for, whatever is mounted. -/
def flags (o : MountOptions) : MountFlags :=
  (if o.isReadonly then MountFlags.readonly else 0)
    ||| (if o.suid = .denied then MountFlags.nosuid else 0)
    ||| (if o.dev = .denied then MountFlags.nodev else 0)
    ||| (if o.exec = .denied then MountFlags.noexec else 0)
    ||| o.atime.flag ||| o.sync.flag

/-- The attributes that the options ask for. -/
def attrs (o : MountOptions) : MountAttrs :=
  (if o.isReadonly then MountAttrs.readonly else 0)
    ||| (if o.suid = .denied then MountAttrs.nosuid else 0)
    ||| (if o.dev = .denied then MountAttrs.nodev else 0)
    ||| (if o.exec = .denied then MountAttrs.noexec else 0)
    ||| o.atime.attr

/-- The flags that the options open explicitly. -/
def relaxed (o : MountOptions) : MountFlags :=
  (if o.access.isWritable then MountFlags.readonly else 0)
    ||| (if o.suid = .allowed then MountFlags.nosuid else 0)
    ||| (if o.dev = .allowed then MountFlags.nodev else 0)
    ||| (if o.exec = .allowed then MountFlags.noexec else 0)

/-- The attributes to clear: those opened explicitly, and the whole
access-time field when a mode is asked for, since the field has to be
empty before a mode is written into it. -/
def clearedAttrs (o : MountOptions) : MountAttrs :=
  (if o.atime = .unset then 0 else MountAttrs.atimeField)
    ||| (if o.access.isWritable then MountAttrs.readonly else 0)
    ||| (if o.suid = .allowed then MountAttrs.nosuid else 0)
    ||| (if o.dev = .allowed then MountAttrs.nodev else 0)
    ||| (if o.exec = .allowed then MountAttrs.noexec else 0)

end MountOptions

end ContainerMounts
