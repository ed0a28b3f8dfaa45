/-
ContainerMounts.MountTable.Inherit — flags that a remount takes over.

A remount of a bind replaces every flag of the mount, so a remount that
names only what it wants would drop what the enclosing mount enforces.
`MountTable.inherit` therefore starts from the enclosing mount's flags
and adds the wanted ones; `MountTable.inheritRelaxed` clears afterwards
what the request opens explicitly.
-/
import ContainerMounts.Flags
import ContainerMounts.MountTable

namespace ContainerMounts

/-- The flag that an option of a live mount stands for. -/
def MountFlags.ofOption (option : String) : MountFlags :=
  match option with
  | "ro" => .readonly
  | "nosuid" => .nosuid
  | "nodev" => .nodev
  | "noexec" => .noexec
  | "noatime" => .noatime
  | "nodiratime" => .nodiratime
  | "relatime" => .relatime
  | _ => .none

/-- The flags that a live mount enforces. -/
def MountRecord.flags (r : MountRecord) : MountFlags :=
  r.vfsOptions.foldl (fun flags option => flags ||| .ofOption option) .none

namespace MountTable

/-- The flags of the mount that the path lives on; none if there is none. -/
def ambient (table : MountTable) (path : Path) : MountFlags :=
  match table.enclosing path with
  | some r => r.flags
  | none => .none

/-- The wanted flags on top of the ambient ones. A mount has one
access-time mode, so a wanted mode replaces the ambient one. -/
def inherit (table : MountTable) (path : Path) (wanted : MountFlags) : MountFlags :=
  let ambient := table.ambient path
  let kept := if wanted.meets MountFlags.atimeModes then ambient.without MountFlags.atimeModes
    else ambient
  kept ||| wanted

/-- The same, less what is opened explicitly. -/
def inheritRelaxed (table : MountTable) (path : Path) (wanted relaxed : MountFlags) :
    MountFlags :=
  (table.inherit path wanted).without relaxed

end MountTable

end ContainerMounts
