/-
ContainerMounts.Plan — what to mount, in which order.

A plan is made before anything is mounted. Each declared mount and each
path to be protected becomes a `MountOp`; mounts come before overlays
and, within each, paths with fewer names before paths with more, so a
mount is never hidden by one made later above it.

`MountPlan.build` makes the plan from the declared mounts and the host's
files, which it only looks at. `MountPlan.warnings` are the warnings of
that planning, up to where it ends.
-/
import ContainerMounts.Destination
import ContainerMounts.FileTree.Lookup
import ContainerMounts.Request
import ContainerMounts.Warning

namespace ContainerMounts

/-! ## Operations -/

/-- Where a mount takes its content from. -/
inductive MountSource where
  /-- A file of the host, by its real path. -/
  | path (real : Path) (kind : FileKind)
  /-- No mount: the destination becomes a symlink with this text. -/
  | symlink (text : Path)
  /-- A filesystem, under this name. -/
  | virtual (name : String)
  /-- Whatever is at the target already. -/
  | target
  deriving DecidableEq, Repr

/-- The part of a setup that an operation belongs to. -/
inductive Phase where
  | mount
  | overlay
  deriving DecidableEq, Repr

/-- How a path is protected. -/
inductive OverlayKind where
  /-- It cannot be written through. -/
  | readonly
  /-- Its content cannot be seen. -/
  | masked
  deriving DecidableEq, Repr

/-- A planned operation. -/
structure MountOp where
  request : MountRequest
  /-- The destination in its one form. -/
  target : Path
  source : MountSource
  /-- The request's options, as far as the source can honour them. -/
  options : MountOptions
  /-- The number of names in the target. -/
  depth : Nat
  phase : Phase
  overlay : Option OverlayKind := none
  /-- The tables of an id-mapped bind. -/
  idmap : Option OwnerMapping := none
  deriving DecidableEq, Repr

/-- What a plan is made from. -/
structure PlanInput where
  /-- The declared mounts, in order. -/
  mounts : List MountRequest := []
  readonlyPaths : List String := []
  maskedPaths : List String := []
  /-- The container's own tables. -/
  uidMapping : IdMapping := {}
  gidMapping : IdMapping := {}
  /-- A `/proc` is mounted even if none is declared. -/
  implicitProc : Bool := false
  /-- The directory that relative bind sources start from. -/
  bundle : Option Path := none

/-- Operations in the order of execution. -/
structure MountPlan where
  ops : List MountOp := []
  deriving DecidableEq, Repr

namespace Phase

/-- The place of the phase in a plan. -/
def rank : Phase → Nat
  | mount => 0
  | overlay => 1

end Phase

/-- The operation may stand before the other: in an earlier phase, or in
the same with no more names. -/
def MountOp.precedes (a b : MountOp) : Bool :=
  a.phase.rank < b.phase.rank || (a.phase.rank == b.phase.rank && a.depth ≤ b.depth)

/-! ## Bind sources -/

namespace MountSource

/-- The error of a look at a bind source. A missing source is a mistake in
the configuration. -/
def missing (path : Path) (fault : Fault) : Error :=
  if fault = .os .noEntry then .config ("bind source " ++ path.display ++ " does not exist")
  else .io fault

/-- The source at a real path. -/
def ofReal (tree : FileTree) (real : Path) : Except Error MountSource := do
  let node ← (tree.stat real).mapError (missing real)
  match FileKind.ofNode? node with
  | some kind => .ok (.path real kind)
  | none => .error (.config ("unsupported bind source type: " ++ real.display))

/-- The source at a path of the host. A symlink is resolved unless it is to
be copied or leads nowhere; then the link itself is what the container
gets. -/
def inspect (tree : FileTree) (path : Path) (copySymlink : Bool) : Except Error MountSource := do
  let node ← (tree.lstat path).mapError (missing path)
  match node with
  | .symlink text =>
      if copySymlink then return .symlink text
      else
        match tree.realPath path with
        | .ok real => ofReal tree real
        | .error fault => if fault = .os .noEntry then return .symlink text else throw (.io fault)
  | _ =>
      let real ← (tree.realPath path).mapError (missing path)
      ofReal tree real

end MountSource

namespace MountRequest

/-- The path of the host that a bind takes its source from. -/
def sourcePath (bundle : Option Path) (raw : String) : Path :=
  match bundle with
  | some dir => dir.join (Path.ofString raw)
  | none => Path.ofString raw

/-- The options of the request. Only a bind can be id-mapped. -/
def parsedOptions (r : MountRequest) : Except Error MountOptions := do
  let options ← MountOptions.parse r.options
  if options.idmap ≠ .none ∧ r.kind ≠ .bind then
    throw (.invalidOption "idmap" "id mapping is only supported on bind mounts")
  return options

/-- The source of the request. -/
def findSource (tree : FileTree) (bundle : Option Path) (r : MountRequest)
    (options : MountOptions) : Except Error MountSource :=
  if r.kind = .bind then
    match r.source with
    | none => .error (.config ("bind mount of " ++ r.destination ++ " has no source"))
    | some raw => MountSource.inspect tree (sourcePath bundle raw) options.copySymlink
  else .ok (.virtual (r.source.getD (r.kind.fsType?.getD "")))

/-- What is known of a request before its id mapping is chosen: target,
options and source. -/
def survey (tree : FileTree) (bundle : Option Path) (r : MountRequest) :
    Except Error (Path × MountOptions × MountSource) := do
  let target ← Destination.normalize r.destination
  let options ← r.parsedOptions
  let source ← findSource tree bundle r options
  return (target, options, source)

/-- The warning that planning the request gives. -/
def warning? (tree : FileTree) (bundle : Option Path) (r : MountRequest) : Option Warning :=
  match r.survey tree bundle with
  | .ok (_, options, .path _ kind) =>
      let words := options.narrowedBy kind
      if words.isEmpty then none else some (.narrowed kind words)
  | _ => none

end MountRequest

/-! ## Plans -/

namespace MountSource

/-- The options as far as the source can honour them. -/
def restrict (source : MountSource) (options : MountOptions) : MountOptions :=
  match source with
  | .path _ kind => options.restrictedTo kind
  | _ => options

/-- The source is copied as a symlink. -/
def isSymlink : MountSource → Bool
  | .symlink _ => true
  | _ => false

end MountSource

namespace PlanInput

/-- The tables for the request's mount, if it is to be id-mapped. -/
def chooseMapping (input : PlanInput) (r : MountRequest) (options : MountOptions)
    (source : MountSource) : Except Error (Option OwnerMapping) :=
  if options.idmap = .none ∨ source.isSymlink then .ok none
  else some <$> OwnerMapping.select r.uidMapping r.gidMapping input.uidMapping input.gidMapping

/-- The operation of a declared mount. -/
def planMount (input : PlanInput) (tree : FileTree) (r : MountRequest) :
    Except Error MountOp := do
  let (target, parsed, source) ← r.survey tree input.bundle
  let options := source.restrict parsed
  let idmap ← input.chooseMapping r options source
  return { request := r, target, source, options, depth := target.depth, phase := .mount, idmap }

/-- The operation that protects a path. -/
def planOverlay (kind : OverlayKind) (path : String) : Except Error MountOp := do
  let target ← Destination.normalize path
  return {
    request := { destination := path, kind := .bind }
    target
    source := .target
    options := { access := .readOnly }
    depth := target.depth
    phase := .overlay
    overlay := some kind }

/-- Some declared mount goes to `/proc`. -/
def declaresProc (input : PlanInput) : Bool :=
  input.mounts.any fun r =>
    match Destination.normalize r.destination with
    | .ok target => target == Path.ofString "/proc"
    | .error _ => false

/-- The mounts to plan, the implicit `/proc` in front. -/
def requests (input : PlanInput) : List MountRequest :=
  if input.implicitProc && !input.declaresProc then MountRequest.implicitProc :: input.mounts
  else input.mounts

/-- The operations of the requests, none of which may go where an earlier
one or one of `taken` goes. -/
def planMounts (input : PlanInput) (tree : FileTree) :
    (taken : List Path) → List MountRequest → Except Error (List MountOp)
  | _, [] => .ok []
  | taken, r :: rest => do
      let op ← input.planMount tree r
      if op.target ∈ taken then throw (.duplicateDestination op.target.display)
      let ops ← planMounts input tree (op.target :: taken) rest
      return op :: ops

/-- The requests that planning comes to, up to the first that fails. -/
def reached (input : PlanInput) (tree : FileTree) :
    (taken : List Path) → List MountRequest → List MountRequest
  | _, [] => []
  | taken, r :: rest =>
      match input.planMount tree r with
      | .ok op =>
          if op.target ∈ taken then [r] else r :: reached input tree (op.target :: taken) rest
      | .error _ => [r]

/-- The operations that protect paths: first those against writing, then
those against reading. -/
def planOverlays (input : PlanInput) : Except Error (List MountOp) := do
  let readonly ← input.readonlyPaths.mapM (planOverlay .readonly)
  let masked ← input.maskedPaths.mapM (planOverlay .masked)
  return readonly ++ masked

end PlanInput

namespace MountPlan

/-- The plan for the input, on a host with these files. -/
def build (tree : FileTree) (input : PlanInput) : Except Error MountPlan := do
  let mounts ← input.planMounts tree [] input.requests
  let overlays ← input.planOverlays
  return ⟨(mounts ++ overlays).mergeSort MountOp.precedes⟩

/-- The warnings of building that plan. -/
def warnings (tree : FileTree) (input : PlanInput) : List Warning :=
  (input.reached tree [] input.requests).filterMap (·.warning? tree input.bundle)

end MountPlan

end ContainerMounts
