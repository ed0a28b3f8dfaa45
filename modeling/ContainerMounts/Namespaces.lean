/-
ContainerMounts.Namespaces — which namespaces a container gets.

The mount setup does not make namespaces; it has to know them, because
they decide how `/sys` and the control groups can be provided.
-/
import ContainerMounts.Flags

namespace ContainerMounts

/-- A kind of namespace. -/
inductive NamespaceKind where
  | pid
  | network
  | mount
  | ipc
  | uts
  | user
  | cgroup
  | time
  deriving DecidableEq, Repr

namespace NamespaceKind

/-- Every kind. -/
def all : List NamespaceKind := [pid, network, mount, ipc, uts, user, cgroup, time]

/-- The word for the kind. -/
def name : NamespaceKind → String
  | pid => "pid"
  | network => "network"
  | mount => "mount"
  | ipc => "ipc"
  | uts => "uts"
  | user => "user"
  | cgroup => "cgroup"
  | time => "time"

/-- The kind with this word. -/
def ofName? (word : String) : Option NamespaceKind := all.find? (·.name == word)

end NamespaceKind

/-- The namespaces that a container gets of its own. -/
structure Namespaces where
  user : Bool := false
  pid : Bool := false
  net : Bool := false
  mount : Bool := false
  uts : Bool := false
  ipc : Bool := false
  cgroup : Bool := false
  time : Bool := false
  deriving DecidableEq, Repr

namespace Namespaces

/-- Every namespace. -/
def all : Namespaces := ⟨true, true, true, true, true, true, true, true⟩

/-- The namespaces, and one more. -/
def insert (ns : Namespaces) : NamespaceKind → Namespaces
  | .user => { ns with user := true }
  | .pid => { ns with pid := true }
  | .network => { ns with net := true }
  | .mount => { ns with mount := true }
  | .uts => { ns with uts := true }
  | .ipc => { ns with ipc := true }
  | .cgroup => { ns with cgroup := true }
  | .time => { ns with time := true }

/-- The namespaces of these kinds. -/
def ofKinds (kinds : List NamespaceKind) : Namespaces := kinds.foldl insert {}

/-- The flags that leave these namespaces behind. -/
def unshareFlags (ns : Namespaces) : UnshareFlags :=
  (if ns.user then UnshareFlags.newUser else 0)
    ||| (if ns.pid then UnshareFlags.newPid else 0)
    ||| (if ns.net then UnshareFlags.newNet else 0)
    ||| (if ns.mount then UnshareFlags.newMount else 0)
    ||| (if ns.uts then UnshareFlags.newUts else 0)
    ||| (if ns.ipc then UnshareFlags.newIpc else 0)
    ||| (if ns.cgroup then UnshareFlags.newCgroup else 0)
    ||| (if ns.time then UnshareFlags.newTime else 0)

end Namespaces

end ContainerMounts
