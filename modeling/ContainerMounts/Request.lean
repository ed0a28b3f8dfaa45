/-
ContainerMounts.Request — a mount as a configuration declares it.
-/
import ContainerMounts.IdMapping
import ContainerMounts.Options

namespace ContainerMounts

/-- What is mounted. -/
inductive MountKind where
  /-- A tree of the host. -/
  | bind
  | tmpfs
  | proc
  | sysfs
  | cgroup
  | devpts
  /-- A filesystem of any other type. -/
  | other (fsType : String)
  deriving DecidableEq, Repr

namespace MountKind

/-- The kind that a declared type stands for. -/
def ofType (fsType : String) : MountKind :=
  match fsType with
  | "bind" => .bind
  | "tmpfs" => .tmpfs
  | "proc" => .proc
  | "sysfs" => .sysfs
  | "cgroup" => .cgroup
  | "cgroup2" => .cgroup
  | "devpts" => .devpts
  | t => .other t

/-- The kind of a mount with this declared type and these options. A bind
option makes a bind whatever the type says; without a type, so does
recursive read-only. -/
def classify (fsType : Option String) (o : MountOptions) : Except Error MountKind :=
  if o.bind ≠ .none then .ok .bind
  else
    match fsType with
    | some t => .ok (ofType t)
    | none =>
        if o.impliesBind then .ok .bind
        else .error (.config "mount without type or bind option")

/-- The type handed to the kernel; a bind has none. -/
def fsType? : MountKind → Option String
  | .bind => none
  | .tmpfs => some "tmpfs"
  | .proc => some "proc"
  | .sysfs => some "sysfs"
  | .cgroup => some "cgroup2"
  | .devpts => some "devpts"
  | .other fsType => some fsType

end MountKind

/-- A declared mount. -/
structure MountRequest where
  /-- Where it goes, as written. -/
  destination : String
  kind : MountKind
  /-- A path of the host for a bind, any text otherwise. -/
  source : Option String := none
  /-- Option tokens, as written. -/
  options : List String := []
  uidMapping : Option IdMapping := none
  gidMapping : Option IdMapping := none
  deriving DecidableEq, Repr

namespace MountRequest

/-- The request of a configuration's mount entry. -/
def declare (destination : String) (fsType source : Option String) (tokens : List String)
    (uidRanges gidRanges : List IdRange) : Except Error MountRequest := do
  let options ← MountOptions.parse tokens
  let kind ← MountKind.classify fsType options
  let uid ← IdMapping.ofDeclared uidRanges
  let gid ← IdMapping.ofDeclared gidRanges
  return { destination, kind, source, options := tokens, uidMapping := uid, gidMapping := gid }

/-- The `/proc` of a container that declares none. -/
def implicitProc : MountRequest where
  destination := "/proc"
  kind := .proc
  source := some "proc"
  options := ["nosuid", "noexec", "nodev"]

end MountRequest

end ContainerMounts
