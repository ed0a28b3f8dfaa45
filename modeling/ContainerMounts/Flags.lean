/-
ContainerMounts.Flags — the flag words of the mount system calls.

Two encodings of one idea: `MountFlags` is the word of the classic mount
call, `MountAttrs` the word of the attribute call. They agree on the four
restrictions and differ on the access-time mode, which is one of three
separate flags in the first and a field of three bits in the second.
-/

namespace ContainerMounts

/-- The flag word of the mount call: a machine word, of which the kernel looks
at the lower half. -/
abbrev MountFlags := BitVec 64

namespace MountFlags

/-- No flag. -/
def none : MountFlags := 0
/-- The mount cannot be written through. -/
def readonly : MountFlags := 0x1
/-- Set-user-id bits have no effect. -/
def nosuid : MountFlags := 0x2
/-- Device nodes cannot be opened. -/
def nodev : MountFlags := 0x4
/-- Programs cannot be run. -/
def noexec : MountFlags := 0x8
/-- Writes are synchronous. -/
def synchronous : MountFlags := 0x10
/-- The call changes an existing mount. -/
def remount : MountFlags := 0x20
/-- Directory changes are synchronous. -/
def dirsync : MountFlags := 0x80
/-- Access times are not updated. -/
def noatime : MountFlags := 0x400
/-- Access times of directories are not updated. -/
def nodiratime : MountFlags := 0x800
/-- The call acts on one mount, not on the filesystem behind it. -/
def bind : MountFlags := 0x1000
/-- The call covers the mounts below. -/
def recursive : MountFlags := 0x4000
/-- The mount cannot be bound. -/
def unbindable : MountFlags := 0x20000
/-- Mount events stay inside. -/
def privately : MountFlags := 0x40000
/-- Mount events come in only. -/
def slave : MountFlags := 0x80000
/-- Mount events travel both ways. -/
def shared : MountFlags := 0x100000
/-- Access times are updated now and then. -/
def relatime : MountFlags := 0x200000
/-- Access times are always updated. -/
def strictatime : MountFlags := 0x1000000

/-- The three access-time modes, of which a mount has one. -/
def atimeModes : MountFlags := noatime ||| relatime ||| strictatime

/-- Every flag of `part` is set in `flags`. -/
def includes (flags part : MountFlags) : Bool := flags &&& part == part

/-- Some flag of `part` is set in `flags`. -/
def meets (flags part : MountFlags) : Bool := flags &&& part != 0

/-- The flags that are not in `part`. -/
def without (flags part : MountFlags) : MountFlags := flags &&& ~~~part

end MountFlags

/-- The attribute word of the mount attribute call. -/
abbrev MountAttrs := BitVec 64

namespace MountAttrs

/-- No attribute. -/
def none : MountAttrs := 0
/-- The mount cannot be written through. -/
def readonly : MountAttrs := 0x1
/-- Set-user-id bits have no effect. -/
def nosuid : MountAttrs := 0x2
/-- Device nodes cannot be opened. -/
def nodev : MountAttrs := 0x4
/-- Programs cannot be run. -/
def noexec : MountAttrs := 0x8
/-- The field that holds the access-time mode. -/
def atimeField : MountAttrs := 0x70
/-- Access times are updated now and then: the zero of the field. -/
def relatime : MountAttrs := 0x0
/-- Access times are not updated. -/
def noatime : MountAttrs := 0x10
/-- Access times are always updated. -/
def strictatime : MountAttrs := 0x20
/-- Owners are presented through a user namespace. -/
def idmap : MountAttrs := 0x100000

end MountAttrs

/-- Flags of the calls that name a mount by descriptor and path. -/
abbrev AtFlags := BitVec 32

namespace AtFlags

/-- The descriptor itself is meant, the path is empty. -/
def emptyPath : AtFlags := 0x1000
/-- The mounts below are covered too. -/
def recursive : AtFlags := 0x8000
/-- A mount tree is copied, not opened in place. -/
def treeClone : AtFlags := 0x1
/-- The descriptor is closed when a program is started. -/
def treeCloseOnExec : AtFlags := 0x80000

end AtFlags

/-- Flags of the call that leaves namespaces behind. -/
abbrev UnshareFlags := BitVec 32

namespace UnshareFlags

/-- A new clock-offset namespace. -/
def newTime : UnshareFlags := 0x80
/-- A new mount namespace. -/
def newMount : UnshareFlags := 0x20000
/-- A new control-group namespace. -/
def newCgroup : UnshareFlags := 0x2000000
/-- A new host-name namespace. -/
def newUts : UnshareFlags := 0x4000000
/-- A new message-queue namespace. -/
def newIpc : UnshareFlags := 0x8000000
/-- A new user namespace. -/
def newUser : UnshareFlags := 0x10000000
/-- A new process namespace. -/
def newPid : UnshareFlags := 0x20000000
/-- A new network namespace. -/
def newNet : UnshareFlags := 0x40000000

end UnshareFlags

end ContainerMounts
