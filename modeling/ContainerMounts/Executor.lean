/-
ContainerMounts.Executor — a plan carried out below a container's root.

Operations run in the order of the plan, and the first that fails ends
the run; nothing is taken back, since the caller gives up the mount
namespace. `Executor.apply` carries out one operation and tells what came
of it, `Executor.execute` a whole plan.
-/
import ContainerMounts.IdMappedBind
import ContainerMounts.Plan
import ContainerMounts.Resolver
import ContainerMounts.VirtualMount

namespace ContainerMounts

/-! ## Reports -/

/-- What came of an operation. -/
inductive Outcome where
  /-- A filesystem or a tree was mounted. -/
  | mounted
  /-- A tree was mounted with an id mapping. -/
  | idMapped
  /-- The destination became a symlink. -/
  | symlinked
  /-- The host's sysfs was bound. -/
  | hostSysfs
  /-- The control groups were provided in this way. -/
  | cgroup (strategy : CgroupStrategy)
  /-- The path was made read-only. -/
  | readonly
  /-- The path was masked. -/
  | masked
  /-- There was nothing at the path. -/
  | skipped
  deriving DecidableEq, Repr

namespace Outcome

/-- The word for the outcome. -/
def name : Outcome → String
  | mounted => "mounted"
  | idMapped => "id-mapped"
  | symlinked => "symlinked"
  | hostSysfs => "host-sysfs"
  | cgroup _ => "cgroup"
  | readonly => "readonly"
  | masked => "masked"
  | skipped => "skipped"

/-- The way in which control groups were provided. -/
def strategy? : Outcome → Option CgroupStrategy
  | cgroup strategy => some strategy
  | _ => none

end Outcome

/-- A line of a report. -/
structure ReportEntry where
  /-- The destination in the container. -/
  target : Path
  outcome : Outcome
  deriving DecidableEq, Repr

/-- What a run did, in order. -/
structure ExecutionReport where
  entries : List ReportEntry := []
  deriving DecidableEq, Repr

/-- The number of operations with that outcome. -/
def ExecutionReport.count (report : ExecutionReport) (outcome : Outcome) : Nat :=
  report.entries.countP (·.outcome == outcome)

/-! ## Execution -/

/-- What a run is done with. -/
structure Executor where
  rootfs : Rootfs
  namespaces : Namespaces
  /-- The propagation of the root itself. -/
  propagation : Propagation := .rprivate
  /-- The root itself becomes read-only at the end. -/
  readonlyRootfs : Bool := false

namespace Executor

/-- The root becomes a mount of its own, unless it is one, with its
propagation set. -/
def prepareRootfs (ex : Executor) : Run Unit := do
  let root := ex.rootfs.path
  if !(← Run.isMountPoint root) then Run.bindMount (.at root) (.at root) true
  Run.setPropagation root ex.propagation

/-- A symlink with this text already stands at the path. -/
def sameLink (tree : FileTree) (dest text : Path) : Bool :=
  match tree.readLink dest with
  | .ok existing => existing.same text
  | .error _ => false

/-- The destination as a symlink with this text. -/
def materializeSymlink (ex : Executor) (target text : Path) : Run Outcome := do
  let resolved ← ex.rootfs.prepare target .parentOnly
  let dest := resolved.hostPath
  match ← Run.change? (·.makeLink text dest) with
  | none => return .symlinked
  | some fault =>
      if fault = .os .alreadyExists ∧ sameLink (← Run.tree) dest text then return .symlinked
      else throw (.mount "symlink" dest fault)

/-- Every mount on the target is made read-only, if the options ask for
it. -/
def finishReadonly (target : Path) (options : MountOptions) : Run Unit :=
  if options.isRecursiveReadonly then Run.makeReadonlyRecursive target options.flags
  else return ()

/-- A tree of the host on a pinned target, with its owners mapped. -/
def attachMapped (source : Path) (target : Path) (pinned : Spot) (options : MountOptions)
    (mapping : OwnerMapping) : Run Outcome := do
  let recursive := options.idmap = .ridmap ∨ options.isRecursiveBind
  Run.bindIdMapped source pinned recursive mapping options.attrs options.clearedAttrs
  finishReadonly target options
  return .idMapped

/-- A tree of the host on a pinned target. The flags of the options take a
remount. -/
def attachPlain (source : Path) (target : Path) (pinned : Spot) (options : MountOptions) :
    Run Outcome := do
  Run.bindMount (.at source) pinned options.isRecursiveBind
  if options.needsRemount then
    Run.remountBind target (← Run.inheritRelaxed target options.flags options.relaxed)
  finishReadonly target options
  return .mounted

/-- A tree of the host on the destination of the operation. -/
def bindSource (ex : Executor) (op : MountOp) (source : Path) (kind : FileKind) :
    Run Outcome := do
  let resolved ← ex.rootfs.prepare op.target kind.placeholder
  let pinned ← ex.rootfs.pin resolved
  match op.idmap with
  | some mapping => attachMapped source resolved.hostPath pinned op.options mapping
  | none => attachPlain source resolved.hostPath pinned op.options

/-- A filesystem of a kind without special treatment, on a pinned target. -/
def mountPlain (ex : Executor) (op : MountOp) (name : String) (resolved : ResolvedPath) :
    Run Outcome := do
  let pinned ← ex.rootfs.pin resolved
  Run.mountFilesystem (Run.sourceName name) pinned (op.request.kind.fsType?.getD name)
    op.options.flags op.options.dataText
  return .mounted

/-- A filesystem on the destination of the operation, as its kind wants
it. -/
def mountKind (ex : Executor) (op : MountOp) (name : String) (resolved : ResolvedPath) :
    Run Outcome := do
  let target := resolved.hostPath
  let flags := op.options.flags
  let data := op.options.dataText
  match op.request.kind with
  | .proc => do
      Run.mountProc target flags data
      return .mounted
  | .sysfs => do
      if ← Run.mountSysfs ex.namespaces target flags data then return .hostSysfs
      else return .mounted
  | .cgroup => return .cgroup (← Run.mountCgroup ex.namespaces target flags data)
  | _ => ex.mountPlain op name resolved

/-- A filesystem on the destination of the operation. -/
def mountVirtual (ex : Executor) (op : MountOp) (name : String) : Run Outcome := do
  let resolved ← ex.rootfs.prepare op.target .directory
  let outcome ← ex.mountKind op name resolved
  finishReadonly resolved.hostPath op.options
  return outcome

/-- What is at a resolved path, made read-only. -/
def protectPath (ex : Executor) (resolved : ResolvedPath) : Run Outcome := do
  let target := resolved.hostPath
  let pinned ← ex.rootfs.pin resolved
  Run.bindMount pinned pinned true
  Run.remountBind target (← Run.inherit target MountFlags.readonly)
  return .readonly

/-- What is at a resolved path, hidden: a directory under an empty one in
memory, anything else under the null device. The flags of the mount that
the path lives on are kept, but for the access-time mode, which the null
device brings along. -/
def hidePath (ex : Executor) (resolved : ResolvedPath) : Run Outcome := do
  let target := resolved.hostPath
  let pinned ← ex.rootfs.pin resolved
  let flags ← Run.inherit target MountFlags.readonly
  let node ← Run.ask (·.nodeAt pinned)
  if node.isDir then
    Run.mountFilesystem (Run.sourceName "tmpfs") pinned "tmpfs" flags "size=0k"
  else
    Run.bindMount (.at (← read).paths.nullDevice) pinned false
    Run.remountBind target (← Run.inherit target (flags.without MountFlags.atimeModes))
  return .masked

/-- An overlay on a path, if there is anything at it. -/
def overlayPath (ex : Executor) (target : Path) (kind : OverlayKind) : Run Outcome := do
  let resolved ← Run.lift (ex.rootfs.resolve (← Run.tree) target)
  if !resolved.exists? then return .skipped
  match kind with
  | .readonly => ex.protectPath resolved
  | .masked => ex.hidePath resolved

/-- The propagation that the options ask for, on what is mounted at the
target. -/
def propagate (ex : Executor) (target : Path) (options : MountOptions) : Run Unit :=
  match options.propagation with
  | none => return ()
  | some propagation => do
      let resolved ← Run.lift (ex.rootfs.resolve (← Run.tree) target)
      Run.setPropagation resolved.hostPath propagation

/-- A declared mount. -/
def applyMount (ex : Executor) (op : MountOp) : Run Outcome :=
  match op.source with
  | .symlink text => ex.materializeSymlink op.target text
  | .path source kind => do
      let outcome ← ex.bindSource op source kind
      ex.propagate op.target op.options
      return outcome
  | .virtual name => do
      let outcome ← ex.mountVirtual op name
      ex.propagate op.target op.options
      return outcome
  | .target => throw (.config ("mount of " ++ op.target.display ++ " has no source"))

/-- One operation. -/
def apply (ex : Executor) (op : MountOp) : Run Outcome :=
  match op.overlay with
  | some kind => ex.overlayPath op.target kind
  | none => ex.applyMount op

/-- The operations, one after the other. -/
def applyAll (ex : Executor) : List MountOp → Run (List ReportEntry)
  | [] => return []
  | op :: rest => do
      let outcome ← ex.apply op
      let entries ← applyAll ex rest
      return ⟨op.target, outcome⟩ :: entries

/-- The root itself, made read-only if that is wanted. Mounts below keep
their own access. -/
def finishRootfs (ex : Executor) : Run (List ReportEntry) := do
  if ex.readonlyRootfs then
    let root := ex.rootfs.path
    Run.remountBind root (← Run.inherit root MountFlags.readonly)
    return [⟨Path.root, .readonly⟩]
  else return []

/-- The whole plan. -/
def execute (ex : Executor) (plan : MountPlan) : Run ExecutionReport := do
  ex.prepareRootfs
  let entries ← ex.applyAll plan.ops
  let last ← ex.finishRootfs
  return ⟨entries ++ last⟩

end Executor

end ContainerMounts
