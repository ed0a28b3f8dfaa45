/-
ContainerMounts.CommandLine — the commands of the program.

A command prints documents and ends with an exit status or with a failure.
The failure is a chain of texts, from what the program was doing to what
the operating system said; what was printed before stays printed.
-/
import ContainerMounts.CommandLine.Arguments
import ContainerMounts.Export
import ContainerMounts.Json.Writer
import ContainerMounts.Setup

namespace ContainerMounts.CommandLine

/-- Something printed. -/
inductive Printed where
  | document (value : Json)
  | word (text : String)

/-- The printed text, with its line's end. -/
def Printed.text : Printed → String
  | .document value => value.toText ++ "\n"
  | .word text => text ++ "\n"

/-- The texts of a failure, outermost first. -/
abbrev FailureChain := List String

/-- What a session has done so far. -/
structure SessionState where
  machine : Machine
  printed : List Printed := []

/-- A command on its way. -/
abbrev Session := ReaderT Host (ExceptT FailureChain (StateM SessionState))

namespace Session

/-- One more thing printed. -/
def print (item : Printed) : Session Unit :=
  modify fun state => { state with printed := state.printed ++ [item] }

/-- A document printed, if the value has a JSON form. -/
def printJson (value : Option Json) : Session Unit :=
  match value with
  | some document => print (.document document)
  | none => throw ["path contains invalid UTF-8 characters"]

/-- An action on the machine, with the texts to put before its failure. -/
def perform {α : Type} (context : List String) (action : Run α) : Session α := do
  let host ← read
  let state ← get
  let (outcome, machine) := ((action.run host).run).run state.machine
  set { state with machine }
  match outcome with
  | .ok value => return value
  | .error e => throw (context ++ e.chain)

end Session

/-- The setup of a bundle. The root filesystem is the given one, or the one
that the configuration names. -/
def loadSetup (bundle : Path) (rootfs : Option Path) : Session MountSetup := do
  let file := bundle.join (Path.ofString "config.json")
  let tree ← Session.perform [] Run.tree
  if !tree.exists? file then throw ["Bundle config.json not found at " ++ file.display]
  let config ← Session.perform ["Failed to load " ++ file.display]
    (Run.lift (RuntimeConfig.load tree file))
  let fromConfig := config.root.map fun root => bundle.join (Path.ofString root.path)
  match rootfs <|> fromConfig with
  | none => throw ["No rootfs given and config.json has no root.path"]
  | some root => Session.perform [] (Run.lift (MountSetup.ofConfig config root (some bundle)))

/-- A mount namespace of its own, which gets mount events but sends none. -/
def leaveMountNamespace : Session Unit := do
  Session.perform ["Failed to unshare mount namespace"] (Run.unshare UnshareFlags.newMount)
  Session.perform ["Failed to make / a slave mount"] (Run.setPropagation Path.root .rslave)

/-- The mounts at and below the root filesystem. -/
def printMountsBelow (rootfs : Path) : Session Unit := do
  let tree ← Session.perform [] Run.tree
  match tree.realPath rootfs with
  | .error fault => throw [fault.text]
  | .ok root =>
      let table ← Session.perform [] Run.table
      Session.printJson (MountTable.toJson? (table.filter fun r => r.target.under root))

/-- The exit status that tells whether id-mapped mounts are supported. -/
def supportStatus : IdMapSupport → Nat
  | .supported => 0
  | .unsupported => 1
  | .indeterminate => 2

/-- The command; tells the exit status. -/
def execute : Command → Session Nat
  | .plan bundle rootfs => do
      let setup ← loadSetup bundle rootfs
      let plan ← Session.perform ["Failed to build mount plan"] setup.plan
      Session.printJson plan.toJson?
      return 0
  | .mount bundle rootfs unshare printTable => do
      let setup ← loadSetup bundle rootfs
      if unshare then leaveMountNamespace
      let report ← Session.perform ["Mount setup failed"] setup.run
      Session.printJson report.toJson?
      if printTable then printMountsBelow setup.rootfs
      return 0
  | .mountinfo target => do
      let table ← Session.perform [] Run.table
      match target with
      | none => Session.printJson table.toJson?
      | some path =>
          match table.enclosing path with
          | none => Session.printJson (some .null)
          | some r => Session.printJson r.toJson?
      return 0
  | .checkIdmappedMounts path => do
      let support ← Session.perform [] (Run.probeIdMapping path)
      Session.print (.word support.name)
      return supportStatus support

/-- What came of a command. -/
structure Conclusion where
  /-- The exit status, or why the command failed. -/
  outcome : Except FailureChain Nat
  printed : List Printed
  machine : Machine

/-- The command, carried out on a machine. -/
def conclude (host : Host) (machine : Machine) (command : Command) : Conclusion :=
  let (outcome, state) := (((execute command).run host).run).run { machine }
  { outcome, printed := state.printed, machine := state.machine }

end ContainerMounts.CommandLine
