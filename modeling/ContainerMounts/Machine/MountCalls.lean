/-
ContainerMounts.Machine.MountCalls — the mount operations, one call each.

Every operation names itself and its target in its error. An argument
with a NUL byte fails before a call is made. The one operation of two
calls is `makeReadonlyRecursive`: where the kernel does not have the
attribute call, it settles for a remount of the top mount, with a
warning.
-/
import ContainerMounts.Machine
import ContainerMounts.MountTable.Inherit
import ContainerMounts.Options.Flags

namespace ContainerMounts.Run

/-! ## Calls and their faults -/

/-- The position of the first NUL byte of a text. -/
def nulInText? (text : String) : Option Nat := (Path.ofString text).nulPosition?

/-- The arguments of a mount call. Absent ones are passed as null. -/
structure MountArgs where
  source : Option Spot := none
  target : Spot
  fsType : Option String := none
  flags : MountFlags
  data : Option String := none

namespace MountArgs

/-- The first NUL byte, looked for in source, target, type and data. -/
def nulPosition? (args : MountArgs) : Option Nat :=
  (args.source.bind (·.path.nulPosition?))
    <|> args.target.path.nulPosition?
    <|> (args.fsType.bind nulInText?)
    <|> (args.data.bind nulInText?)

/-- The call; empty data is none. -/
def call (args : MountArgs) : KernelCall :=
  .mount args.source args.target args.fsType args.flags (args.data.filter (!·.isEmpty))

end MountArgs

/-- A mount call, and what it ran into. -/
def mountCall (args : MountArgs) : Run (Option Fault) :=
  match args.nulPosition? with
  | some position => return some (.nulInArgument position)
  | none => do return (← issue .mount args.call).map .os

/-- A mount call, and the error of the operation it belongs to. -/
def mountCall? (operation : String) (args : MountArgs) : Run (Option Error) := do
  return (← mountCall args).map fun fault => .mount operation args.target.path fault

/-! ## Operations -/

/-- A new filesystem on the target, and why it could not be mounted. -/
def mountFilesystem? (source : Spot) (target : Spot) (fsType : String) (flags : MountFlags)
    (data : String) : Run (Option Error) :=
  mountCall? "mount" { source := some source, target, fsType := some fsType, flags,
                       data := some data }

/-- A new filesystem on the target. -/
def mountFilesystem (source : Spot) (target : Spot) (fsType : String) (flags : MountFlags)
    (data : String) : Run Unit := do
  raise (← mountFilesystem? source target fsType flags data)

/-- The source's tree on the target, with the mounts below it if recursive. -/
def bindMount (source target : Spot) (recursive : Bool) : Run Unit := do
  let flags := if recursive then MountFlags.bind ||| MountFlags.recursive else MountFlags.bind
  raise (← mountCall? "bind mount" { source := some source, target, flags })

/-- New flags for the mount on the target, in place of all it has. -/
def remountBind (target : Path) (flags : MountFlags) : Run Unit := do
  raise (← mountCall? "bind remount"
    { target := .at target, flags := flags ||| MountFlags.bind ||| MountFlags.remount })

/-- New flags and data for the filesystem on the target. -/
def remount (target : Path) (flags : MountFlags) (data : String) : Run Unit := do
  raise (← mountCall? "remount"
    { target := .at target, flags := flags ||| MountFlags.remount, data := some data })

/-- A propagation mode for the mount on the target. -/
def setPropagation (target : Path) (propagation : Propagation) : Run Unit := do
  raise (← mountCall? "set propagation" { target := .at target, flags := propagation.flags })

/-- Attributes at a path, and what the call ran into. -/
def setAttrAt (path : Path) (flags : AtFlags) (change : AttrChange) : Run (Option Fault) :=
  match path.nulPosition? with
  | some position => return some (.nulInArgument position)
  | none => do return (← issue .mountSetattr (.setAttrAt path flags change)).map .os

/-- The attribute change that forbids writing. -/
def readonlyChange : AttrChange := { set := .readonly }

/-- Every mount at and below the target is made read-only. The flags are
those to keep on the target itself where only a remount can be done. -/
def makeReadonlyRecursive (target : Path) (flags : MountFlags) : Run Unit := do
  match ← setAttrAt target AtFlags.recursive readonlyChange with
  | none => return ()
  | some fault =>
      if fault = .os .notImplemented then
        warn (.topMountOnly target)
        remountBind target (flags ||| MountFlags.readonly)
      else throw (.mount "recursive read-only" target fault)

/-- The process leaves the namespaces it shares. -/
def unshare (flags : UnshareFlags) : Run Unit := do
  match ← issue .unshare (.unshare flags) with
  | none => return ()
  | some e => throw (.mount "unshare" Path.root (.os e))

/-! ## Flags from the mount table -/

/-- The wanted flags on top of those of the mount that the path lives on. -/
def inherit (path : Path) (wanted : MountFlags) : Run MountFlags := do
  return (← table).inherit path wanted

/-- The same, less what is opened explicitly. -/
def inheritRelaxed (path : Path) (wanted relaxed : MountFlags) : Run MountFlags := do
  return (← table).inheritRelaxed path wanted relaxed

/-- A mount sits on exactly this path. -/
def isMountPoint (path : Path) : Run Bool := do return (← table).isMountPoint path

end ContainerMounts.Run
