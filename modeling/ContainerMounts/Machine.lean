/-
ContainerMounts.Machine — the host that a mount setup acts on.

The files of the host are a tree that operations read and change. The
privileged calls are different: what they do to the host is the kernel's
business, so a `Machine` keeps the list of calls that were made
(`Machine.events`), each with the files as it found them (`Machine.log`),
and the `Host` answers them, one by one: it may refuse any call, and it
shows a mount table after each of them.

`Run` is an action on a machine. It may fail, and what was done before
the failure stays done.
-/
import ContainerMounts.FileTree.Lookup
import ContainerMounts.Flags
import ContainerMounts.MountTable
import ContainerMounts.Warning

namespace ContainerMounts

/-! ## Calls -/

/-- A kind of call that the host may refuse. -/
inductive CallKind where
  | mount
  | mountSetattr
  | openTree
  | moveMount
  | openat2
  | unshare
  | capget
  | fork
  /-- Leaving the user namespace, in the helper process. -/
  | helperUnshare
  | uidMap
  | setgroups
  | gidMap
  /-- Opening the helper's user namespace. -/
  | userNamespace
  deriving DecidableEq, Repr

/-- A file through which a user namespace gets its tables. -/
inductive MapFile where
  | uidMap
  | setgroups
  | gidMap
  deriving DecidableEq, Repr

namespace MapFile

/-- The file's name. -/
def name : MapFile → String
  | uidMap => "uid_map"
  | setgroups => "setgroups"
  | gidMap => "gid_map"

/-- The call that opens the file. -/
def callKind : MapFile → CallKind
  | uidMap => .uidMap
  | setgroups => .setgroups
  | gidMap => .gidMap

end MapFile

/-- The argument of an attribute call. -/
structure AttrChange where
  set : MountAttrs := .none
  clear : MountAttrs := .none
  /-- A user namespace goes with the call. -/
  userNamespace : Bool := false
  deriving DecidableEq, Repr

/-- A call that changes mounts or namespaces. -/
inductive KernelCall where
  | mount (source : Option Spot) (target : Spot) (fsType : Option String) (flags : MountFlags)
      (data : Option String)
  /-- Copy the mount tree at a path. -/
  | openTree (path : Path) (flags : AtFlags)
  /-- Change attributes at a path. -/
  | setAttrAt (path : Path) (flags : AtFlags) (change : AttrChange)
  /-- Change attributes of a copied tree, named by the path it was copied from. -/
  | setAttrOf (tree : Path) (flags : AtFlags) (change : AttrChange)
  /-- Attach a copied tree. -/
  | moveMount (tree : Path) (target : Spot)
  | write (file : MapFile) (text : String)
  | unshare (flags : UnshareFlags)
  deriving DecidableEq, Repr

/-- A call and the number with which it was refused, if it was. -/
structure Event where
  call : KernelCall
  refusal : Option Errno
  deriving DecidableEq, Repr

namespace Event

/-- The call is a mount call. -/
def isMount (e : Event) : Bool :=
  match e.call with
  | .mount .. => true
  | _ => false

end Event

/-! ## Host and machine -/

/-- Where things are on the host. -/
structure HostPaths where
  cgroupRoot : Path := Path.ofString "/sys/fs/cgroup"
  sysfsRoot : Path := Path.ofString "/sys"
  nullDevice : Path := Path.ofString "/dev/null"

/-- A call that the host refuses: the one of its kind with so many before
it. -/
structure Refusal where
  kind : CallKind
  index : Nat
  errno : Errno
  deriving DecidableEq, Repr

/-- How the host answers. -/
structure Host where
  paths : HostPaths
  /-- All calls that are refused; of several entries for one call the first
  counts. -/
  refusals : List Refusal := []
  /-- How a directory is listed. -/
  listing : ListingOrder := .asAdded
  /-- The mount table after these calls. -/
  table : List Event → Except Error MountTable
  /-- The process may administer the system. -/
  admin : Bool

/-- A host that grants every call and whose mounts stay as they are. -/
def Host.granting (paths : HostPaths) (table : Except Error MountTable) : Host where
  paths := paths
  table := fun _ => table
  admin := true

/-- The answer to the call of this kind with so many before it. -/
def Host.answer (host : Host) (kind : CallKind) (index : Nat) : Option Errno :=
  (host.refusals.find? fun r => r.kind = kind ∧ r.index = index).map (·.errno)

/-- A call on record, with the files as they were when it was made. -/
structure Moment where
  tree : FileTree
  event : Event

/-- The host's files and what has happened so far. -/
structure Machine where
  tree : FileTree
  /-- Every call on record, in order. -/
  log : List Moment := []
  /-- The kinds of all calls so far, listed in `events` or not. -/
  attempts : List CallKind := []
  warnings : List Warning := []

/-- The calls on record. -/
def Machine.events (m : Machine) : List Event := m.log.map (·.event)

/-- An action on a machine. -/
abbrev Run := ReaderT Host (ExceptT Error (StateM Machine))

namespace Run

/-- The outcome of a pure computation. -/
def lift {α : Type} : Except Error α → Run α
  | .ok a => pure a
  | .error e => throw e

/-- Failure, if there is an error. -/
def raise : Option Error → Run Unit
  | none => pure ()
  | some e => throw e

/-- The files of the host. -/
def tree : Run FileTree := do return (← get).tree

/-- A change to the files; on a fault they stay as they are. -/
def change? (edit : FileTree → Except Fault FileTree) : Run (Option Fault) := do
  let machine ← get
  match edit machine.tree with
  | .ok tree =>
      set { machine with tree }
      return none
  | .error fault => return some fault

/-- A question about the files. -/
def ask {α : Type} (question : FileTree → Except Fault α) : Run α := do
  lift ((question (← tree)).mapError .io)

/-- One more warning. -/
def warn (warning : Warning) : Run Unit :=
  modify fun machine => { machine with warnings := machine.warnings ++ [warning] }

/-- The present mount table. -/
def table : Run MountTable := do lift ((← read).table (← get).events)

/-- The host's answer to one more call of this kind. -/
def attempt (kind : CallKind) : Run (Option Errno) := do
  let machine ← get
  set { machine with attempts := machine.attempts ++ [kind] }
  return (← read).answer kind (machine.attempts.count kind)

/-- A call, put on record with the answer it got. -/
def record (call : KernelCall) (refusal : Option Errno) : Run Unit :=
  modify fun machine =>
    { machine with log := machine.log ++ [⟨machine.tree, ⟨call, refusal⟩⟩] }

/-- A call that the host answers. -/
def issue (kind : CallKind) (call : KernelCall) : Run (Option Errno) := do
  let refusal ← attempt kind
  record call refusal
  return refusal

/-- The call, made again while it is interrupted, at most so often. -/
def persist (call : Run (Option Errno)) : (tries : Nat) → Run (Option Errno)
  | 0 => call
  | tries + 1 => do
      let refusal ← call
      if refusal = some .interrupted then persist call tries else return refusal

/-- The call, made again until it is not interrupted. A host interrupts no
more calls than it refuses. -/
def uninterrupted (call : Run (Option Errno)) : Run (Option Errno) := do
  persist call (← read).refusals.length

end Run

end ContainerMounts
