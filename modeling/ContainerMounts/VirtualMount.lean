/-
ContainerMounts.VirtualMount — `proc`, `sysfs` and the control groups.

A new sysfs belongs to whoever owns the network namespace, and a new
control group filesystem needs a control group namespace on most hosts.
Where the kernel refuses one, the host's tree is bound instead. Whatever
way is taken, the control groups end up read-only.
-/
import ContainerMounts.Machine.MountCalls
import ContainerMounts.Namespaces

namespace ContainerMounts

/-! ## Control groups on a host -/

/-- How a host lays out its control groups. -/
inductive CgroupLayout where
  /-- One hierarchy, of the second version, at the root of the control groups. -/
  | unified
  /-- A directory of controllers. -/
  | legacy
  deriving DecidableEq, Repr

/-- How a container gets its control groups. -/
inductive CgroupStrategy where
  /-- A new read-only instance. -/
  | fresh
  /-- The host's hierarchy, bound read-only. -/
  | bindHost
  /-- A directory in memory with a read-only bind of each controller. -/
  | synthetic
  deriving DecidableEq, Repr

namespace CgroupLayout

/-- The word for the layout. -/
def name : CgroupLayout → String
  | unified => "unified"
  | legacy => "legacy"

/-- The layout of a host with this mount table. -/
def detect (table : MountTable) (root : Path) : CgroupLayout :=
  match table.enclosing root with
  | some r => if r.target.same root && r.fsType == "cgroup2" then unified else legacy
  | none => legacy

end CgroupLayout

namespace CgroupStrategy

/-- The word for the strategy. -/
def name : CgroupStrategy → String
  | fresh => "fresh"
  | bindHost => "bind-host"
  | synthetic => "synthetic"

/-- The way for a container with these namespaces. The directory in memory
is only for a container with its own network on a host without a unified
hierarchy. -/
def choose (layout : CgroupLayout) (namespaces : Namespaces) : CgroupStrategy :=
  match layout with
  | .unified => fresh
  | .legacy => if namespaces.net then synthetic else bindHost

end CgroupStrategy

namespace Run

/-- A name given to the kernel as the source of a mount. -/
def sourceName (name : String) : Spot := .at (Path.ofString name)

/-! ## proc and sysfs -/

/-- A new procfs. -/
def mountProc (target : Path) (flags : MountFlags) (data : String) : Run Unit :=
  mountFilesystem (sourceName "proc") (.at target) "proc" flags data

/-- A new sysfs, if the container has its own network and the kernel permits
it. -/
def tryFreshSysfs (namespaces : Namespaces) (target : Path) (flags : MountFlags)
    (data : String) : Run Bool := do
  if namespaces.net then
    match ← mountFilesystem? (sourceName "sysfs") (.at target) "sysfs" flags data with
    | none => return true
    | some e => if e.errno? = some .perm then return false else throw e
  else return false

/-- The host's sysfs on the target. Control groups below it are read-only
even where the rest is not. -/
def bindHostSysfs (target : Path) (flags : MountFlags) : Run Unit := do
  bindMount (.at (← read).paths.sysfsRoot) (.at target) true
  remountBind target (← inherit target flags)
  if flags.includes MountFlags.readonly then makeReadonlyRecursive target flags
  else
    let cgroup := target.join (Path.ofString "fs/cgroup")
    if ← isMountPoint cgroup then makeReadonlyRecursive cgroup (flags ||| MountFlags.readonly)

/-- A sysfs on the target; tells whether it is the host's. -/
def mountSysfs (namespaces : Namespaces) (target : Path) (flags : MountFlags) (data : String) :
    Run Bool := do
  if ← tryFreshSysfs namespaces target flags data then return false
  bindHostSysfs target flags
  return true

/-! ## Control groups in a container -/

/-- The host's hierarchy on the target, read-only. -/
def bindHostCgroup (target : Path) (flags : MountFlags) : Run Unit := do
  bindMount (.at (← read).paths.cgroupRoot) (.at target) true
  remountBind target (← inherit target flags)
  makeReadonlyRecursive target flags

/-- A new instance on the target, if the kernel permits it. -/
def tryFreshCgroup (target : Path) (flags : MountFlags) (data : String) : Run Bool := do
  match ← mountFilesystem? (sourceName "cgroup2") (.at target) "cgroup2" flags data with
  | none =>
      remountBind target (← inherit target flags)
      return true
  | some e =>
      if e.errno? = some .perm ∨ e.errno? = some .busy then return false else throw e

/-- The options of the directory in memory. -/
def syntheticData : String := "mode=755"

/-- Permissions of the directories that controllers are bound on. -/
def controllerMode : Nat := 0o755

/-- A controller of the host on a directory of its own, read-only. -/
def bindController (source dest : Path) (flags : MountFlags) : Run Unit := do
  match ← change? (·.makeDir dest controllerMode) with
  | none => pure ()
  | some fault => if fault ≠ .os .alreadyExists then throw (.io fault)
  bindMount (.at source) (.at dest) false
  remountBind dest (← inherit dest flags)

/-- An entry of the host's directory of controllers, below the target. Links
between controllers are copied. -/
def addController (root target : Path) (flags : MountFlags) (name : Name) (node : Node) :
    Run Unit :=
  let dest := target.join ⟨name⟩
  match node with
  | .symlink text => do
      match ← change? (·.makeLink text dest) with
      | none => return ()
      | some fault => throw (.io fault)
  | .dir .. => bindController (root.join ⟨name⟩) dest flags
  | _ => return ()

/-- The entries, one after the other. -/
def addControllers (root target : Path) (flags : MountFlags) : List (Name × Node) → Run Unit
  | [] => return ()
  | (name, node) :: rest => do
      addController root target flags name node
      addControllers root target flags rest

/-- A directory in memory on the target, with a bind of each controller. It
is made read-only last, since its entries have to be made before. -/
def mountSynthetic (target : Path) (flags : MountFlags) : Run Unit := do
  mountFilesystem (sourceName "tmpfs") (.at target) "tmpfs" (flags.without MountFlags.readonly)
    syntheticData
  let host ← read
  let entries ← ask (·.list host.listing host.paths.cgroupRoot)
  addControllers host.paths.cgroupRoot target flags entries
  remount target flags syntheticData

/-- The control groups on the target; tells the way that was taken. -/
def mountCgroup (namespaces : Namespaces) (target : Path) (flags : MountFlags) (data : String) :
    Run CgroupStrategy := do
  let layout := CgroupLayout.detect (← table) (← read).paths.cgroupRoot
  let flags := flags ||| MountFlags.readonly
  match CgroupStrategy.choose layout namespaces with
  | .fresh => do
      if ← tryFreshCgroup target flags data then return .fresh
      bindHostCgroup target flags
      return .bindHost
  | .bindHost => do
      bindHostCgroup target flags
      return .bindHost
  | .synthetic => do
      mountSynthetic target flags
      return .synthetic

end Run

end ContainerMounts
