/-
ContainerMounts.CommandLine.Arguments — the arguments of a command line.

Arguments are read from left to right, and the first that is wrong ends
the reading; so does a request for help or for the version. An option's
value follows it or is attached to it, as in `--bundle=dir` and `-bdir`.
A value that is a separate argument does not start with a dash, unless it
is a lone dash, and no value is empty. What follows `--` is no option.
-/
import ContainerMounts.Path

namespace ContainerMounts.CommandLine

/-- What to do. -/
inductive Command where
  /-- Print the plan of a bundle. -/
  | plan (bundle : Path) (rootfs : Option Path)
  /-- Perform the mounts of a bundle. -/
  | mount (bundle : Path) (rootfs : Option Path) (unshare printTable : Bool)
  /-- Print the mount table, or the mount that a path lives on. -/
  | mountinfo (target : Option Path)
  /-- Find out whether id-mapped mounts are supported at a path. -/
  | checkIdmappedMounts (path : Path)
  deriving DecidableEq, Repr

/-- A command, and whether debug output is wanted. -/
structure Invocation where
  command : Command
  debug : Bool
  deriving DecidableEq, Repr

/-- Why there is no command to carry out. -/
inductive Stop where
  /-- Help or the version was asked for. -/
  | asked
  /-- An argument is wrong or missing. -/
  | wrong
  deriving DecidableEq, Repr

/-- The exit status of the program. -/
def Stop.status : Stop → Nat
  | asked => 0
  | wrong => 2

/-! ## Options of one command -/

/-- An option by its names. -/
structure OptionSpec where
  long : String
  short : Option Char := none
  /-- A value goes with it. -/
  takesValue : Bool
  deriving DecidableEq, Repr

/-- What has been read of a command's arguments. -/
structure Given where
  /-- Options by long name, with their values. -/
  values : List (String × String) := []
  /-- Options without values, by long name. -/
  switches : List String := []
  /-- Other arguments, in order. -/
  positionals : List String := []

namespace Given

/-- The option was given. -/
def has (g : Given) (long : String) : Bool :=
  g.switches.contains long || (g.values.lookup long).isSome

/-- One more value, for an option that had none and may not be empty. -/
def addValue (g : Given) (long value : String) : Except Stop Given :=
  if g.has long || value.isEmpty then .error .wrong
  else .ok { g with values := g.values ++ [(long, value)] }

/-- One more switch, not given before. -/
def addSwitch (g : Given) (long : String) : Except Stop Given :=
  if g.has long then .error .wrong else .ok { g with switches := g.switches ++ [long] }

/-- The path that an option was given. -/
def path? (g : Given) (long : String) : Option Path :=
  (g.values.lookup long).map Path.ofString

end Given

/-- The switches that every command has. -/
def everySwitch : List OptionSpec := [⟨"debug", none, false⟩]

/-- An argument that starts an option: a dash and something after it. -/
def isOption (argument : String) : Bool :=
  match argument.toList with
  | '-' :: _ :: _ => true
  | _ => false

/-- What an option means: an end of the reading, a switch, or a value that is
attached or still to come. -/
inductive OptionStep where
  | stop (reason : Stop)
  | given (g : Given)
  | awaits (long : String)

/-- A long option, split at the first `=`. -/
def longOption (specs : List OptionSpec) (g : Given) (text : List Char) : OptionStep :=
  let name := String.ofList (text.takeWhile (· != '='))
  let attached := text.dropWhile (· != '=')
  match specs.find? (·.long == name), attached with
  | some spec, [] =>
      if spec.takesValue then .awaits spec.long
      else match g.addSwitch spec.long with
        | .ok g => .given g
        | .error reason => .stop reason
  | some spec, _ :: value =>
      if spec.takesValue then
        match g.addValue spec.long (String.ofList value) with
        | .ok g => .given g
        | .error reason => .stop reason
      else .stop .wrong
  | none, [] => if name = "help" ∨ name = "version" then .stop .asked else .stop .wrong
  | none, _ :: _ => .stop .wrong

/-- Short options after one dash. One that takes a value takes the rest,
without a `=` in front. -/
def shortOptions (specs : List OptionSpec) : Given → List Char → OptionStep
  | g, [] => .given g
  | g, c :: rest =>
      match specs.find? (·.short == some c) with
      | some spec =>
          if spec.takesValue then
            match rest with
            | [] => .awaits spec.long
            | '=' :: value => attach spec g value
            | value => attach spec g value
          else
            match g.addSwitch spec.long with
            | .ok g => shortOptions specs g rest
            | .error reason => .stop reason
      | none => if c = 'h' ∨ c = 'V' then .stop .asked else .stop .wrong
where
  /-- The rest as the value of the option. -/
  attach (spec : OptionSpec) (g : Given) (value : List Char) : OptionStep :=
    match g.addValue spec.long (String.ofList value) with
    | .ok g => .given g
    | .error reason => .stop reason

/-- The meaning of an argument that starts an option. -/
def optionStep (specs : List OptionSpec) (g : Given) (argument : String) : OptionStep :=
  match argument.toList with
  | '-' :: '-' :: name => longOption specs g name
  | _ :: letters => shortOptions specs g letters
  | [] => .stop .wrong

/-- The positional arguments of a command: for each in order, whether a
value is accepted. -/
abbrev Positionals := List (String → Bool)

/-- One more positional argument. -/
def addPositional (accepts : Positionals) (g : Given) (argument : String) : Except Stop Given :=
  match accepts[g.positionals.length]? with
  | some accept =>
      if accept argument then .ok { g with positionals := g.positionals ++ [argument] }
      else .error .wrong
  | none => .error .wrong

/-- The arguments of one command. -/
def readGiven (specs : List OptionSpec) (accepts : Positionals) :
    (awaits : Option String) → Given → List String → Except Stop Given
  | some _, _, [] => .error .wrong
  | none, g, [] => .ok g
  | some long, g, argument :: rest =>
      if isOption argument then .error .wrong
      else
        match g.addValue long argument with
        | .ok g => readGiven specs accepts none g rest
        | .error reason => .error reason
  | none, g, argument :: rest =>
      if argument = "--" then rest.foldlM (addPositional accepts) g
      else if isOption argument then
        match optionStep specs g argument with
        | .stop reason => .error reason
        | .given g => readGiven specs accepts none g rest
        | .awaits long => readGiven specs accepts (some long) g rest
      else
        match addPositional accepts g argument with
        | .ok g => readGiven specs accepts none g rest
        | .error reason => .error reason

/-! ## Commands -/

/-- The names of the commands. -/
def commandNames : List String := ["plan", "mount", "mountinfo", "check-feature", "help"]

/-- The bundle of a command that works on one. -/
def bundleOption : OptionSpec := ⟨"bundle", some 'b', true⟩

/-- The root filesystem of such a command. -/
def rootfsOption : OptionSpec := ⟨"rootfs", none, true⟩

/-- The options of a command. -/
def optionsOf (name : String) : List OptionSpec :=
  everySwitch ++
    match name with
    | "plan" => [bundleOption, rootfsOption]
    | "mount" =>
        [bundleOption, rootfsOption, ⟨"unshare", none, false⟩, ⟨"print-mountinfo", none, false⟩]
    | "mountinfo" => [⟨"target", none, true⟩]
    | _ => []

/-- The positional arguments of a command. -/
def positionalsOf (name : String) : Positionals :=
  match name with
  | "check-feature" => [(· == "idmapped-mounts"), (!·.isEmpty)]
  | _ => []

/-- The command with what was given, if that is enough. -/
def commandOf (name : String) (g : Given) : Except Stop Command :=
  match name with
  | "plan" =>
      match g.path? "bundle" with
      | some bundle => .ok (.plan bundle (g.path? "rootfs"))
      | none => .error .wrong
  | "mount" =>
      match g.path? "bundle" with
      | some bundle =>
          .ok (.mount bundle (g.path? "rootfs") (g.has "unshare") (g.has "print-mountinfo"))
      | none => .error .wrong
  | "mountinfo" => .ok (.mountinfo (g.path? "target"))
  | "check-feature" =>
      match g.positionals with
      | [_, path] => .ok (.checkIdmappedMounts (Path.ofString path))
      | _ => .error .wrong
  | _ => .error .wrong

/-- A request for help on a command, which has to be there. -/
def helpOn (topics : List String) : Stop :=
  match topics with
  | [] => .asked
  | [topic] => if commandNames.contains topic then .asked else .wrong
  | _ => .wrong

/-- A command by its name, with its arguments. -/
def readCommand (debug : Bool) (name : String) (arguments : List String) :
    Except Stop Invocation := do
  if name = "help" then throw (helpOn arguments)
  if !commandNames.contains name then throw .wrong
  let g ← readGiven (optionsOf name) (positionalsOf name) none {} arguments
  return { command := ← commandOf name g, debug := debug || g.has "debug" }

/-- The arguments up to the command's name, and the command. -/
def readFrom (g : Given) : List String → Except Stop Invocation
  | [] => .error .wrong
  | argument :: rest =>
      if isOption argument then
        match optionStep everySwitch g argument with
        | .given g => readFrom g rest
        | .stop reason => .error reason
        | .awaits _ => .error .wrong
      else readCommand (g.has "debug") argument rest

/-- The invocation that the arguments ask for. -/
def readInvocation (arguments : List String) : Except Stop Invocation := readFrom {} arguments

end ContainerMounts.CommandLine
