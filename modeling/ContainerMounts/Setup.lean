/-
ContainerMounts.Setup — the mounts of one container, from configuration
to report.
-/
import ContainerMounts.Config
import ContainerMounts.Executor

namespace ContainerMounts

/-- Everything needed to set up the mounts of a container. -/
structure MountSetup where
  rootfs : Path
  input : PlanInput := {}
  namespaces : Namespaces := {}
  /-- The propagation of the root itself. -/
  propagation : Propagation := .rprivate
  readonlyRootfs : Bool := false

namespace MountSetup

/-- The request of a mount entry. -/
def request (m : MountConfig) : Except Error MountRequest :=
  MountRequest.declare m.destination m.fsType m.source m.options m.uidMappings m.gidMappings

/-- The propagation that the configuration asks for the root. -/
def rootPropagation (word : Option String) : Except Error Propagation :=
  match word with
  | some word => Propagation.parse word
  | none => .ok .rprivate

/-- The setup that a configuration asks for. Relative bind sources start at
the bundle. -/
def ofConfig (config : RuntimeConfig) (rootfs : Path) (bundle : Option Path) :
    Except Error MountSetup := do
  let mounts ← config.mounts.mapM request
  let readonlyRootfs := (config.root.map (·.readonly)).getD false
  match config.linux with
  | none =>
      return { rootfs, input := { mounts, bundle }, namespaces := config.namespaces,
               readonlyRootfs }
  | some linux =>
      let uid ← IdMapping.ofDeclared linux.uidMappings
      let gid ← IdMapping.ofDeclared linux.gidMappings
      let propagation ← rootPropagation linux.rootfsPropagation
      return {
        rootfs
        input := {
          mounts
          bundle
          readonlyPaths := linux.readonlyPaths
          maskedPaths := linux.maskedPaths
          uidMapping := uid.getD {}
          gidMapping := gid.getD {} }
        namespaces := config.namespaces
        propagation
        readonlyRootfs }

/-- The same setup, with `/proc` mounted even if it is not declared. -/
def withImplicitProc (setup : MountSetup) (enabled : Bool) : MountSetup :=
  { setup with input := { setup.input with implicitProc := enabled } }

/-- The plan of the setup, made from the machine's files. -/
def plan (setup : MountSetup) : Run MountPlan := do
  let tree ← Run.tree
  for warning in MountPlan.warnings tree setup.input do Run.warn warning
  Run.lift (MountPlan.build tree setup.input)

/-- What carries out the plan, when the root's real path is this. -/
def executor (setup : MountSetup) (root : Path) : Executor where
  rootfs := ⟨root⟩
  namespaces := setup.namespaces
  propagation := setup.propagation
  readonlyRootfs := setup.readonlyRootfs

/-- Planning and every mount. -/
def run (setup : MountSetup) : Run ExecutionReport := do
  let plan ← setup.plan
  let root ← Run.ask (·.realPath setup.rootfs)
  (setup.executor root).execute plan

end MountSetup

end ContainerMounts
