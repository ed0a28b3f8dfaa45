/-
ContainerMounts.Error — why a mount setup fails.

`Fault` is what a request to the operating system ran into: a kernel
error number, an argument that no system call can carry, or another
reason in words. `Error` says what the program was doing. `Error.message`
is the one-line text shown to the user, `Error.errno?` the kernel's
number where one is behind the failure, and `Error.code` and `Error.help`
go with the message into a diagnostic.
-/
import ContainerMounts.Errno
import ContainerMounts.Path

namespace ContainerMounts

/-- Where a mount call is aimed: at a path, or at a file that is held open
so that no later change of names can redirect the call. -/
inductive Spot where
  | at (path : Path)
  /-- An open descriptor of the file at this real path. -/
  | held (real : Path)
  deriving DecidableEq, Repr

namespace Spot

/-- The descriptor number of a held file. The standard streams take 0 to 2
and the root is open as 3 while the file below it is opened. -/
def descriptor : Nat := 4

/-- The path handed to the kernel; a held file is named through its
descriptor. -/
def path : Spot → Path
  | .at p => p
  | .held _ => Path.ofString ("/proc/thread-self/fd/" ++ toString descriptor)

/-- The place the call reaches. -/
def place : Spot → Path
  | .at p => p
  | .held real => real

end Spot

/-- What a request to the operating system ran into. -/
inductive Fault where
  /-- The kernel's answer. -/
  | os (errno : Errno)
  /-- A file name with a NUL byte. -/
  | nulInName
  /-- A NUL byte at this position of an argument. -/
  | nulInArgument (position : Nat)
  /-- A file whose content is no UTF-8. -/
  | notUtf8
  /-- Any other reason. -/
  | other (text : String)
  deriving DecidableEq, Repr

namespace Fault

/-- The kernel's number, if the kernel answered. -/
def errno? : Fault → Option Errno
  | .os e => some e
  | _ => none

/-- The fault in words. -/
def text : Fault → String
  | .os e => e.text ++ " (os error " ++ toString e.code ++ ")"
  | .nulInName => "file name contained an unexpected NUL byte"
  | .nulInArgument position =>
      "nul byte found in provided data at position: " ++ toString position
  | .notUtf8 => "stream did not contain valid UTF-8"
  | .other text => text

end Fault

/-- Why a mount setup fails. -/
inductive Error where
  /-- A mount option that is not understood or not allowed here. -/
  | invalidOption (token reason : String)
  /-- A table of id ranges that cannot be used. -/
  | invalidIdMapping (reason : String)
  /-- Two declared mounts with one destination. -/
  | duplicateDestination (destination : String)
  /-- A configuration that makes no sense. -/
  | config (reason : String)
  /-- A path that would leave the container's root. -/
  | pathEscape (path reason : String)
  /-- A mount operation that the kernel refused. -/
  | mount (operation : String) (target : Path) (fault : Fault)
  /-- A feature that the host does not have. -/
  | unsupported (feature : String)
  /-- A file operation that failed. -/
  | io (fault : Fault)
  /-- A text in a wrong format. -/
  | serialization (reason : String)
  /-- A configuration text that is not the JSON of a configuration. -/
  | malformedJson
  deriving DecidableEq, Repr

namespace Error

/-- The failure in one line. -/
def message : Error → String
  | .invalidOption token reason => "Invalid mount option `" ++ token ++ "`: " ++ reason
  | .invalidIdMapping reason => "Invalid identity mapping: " ++ reason
  | .duplicateDestination destination => "Duplicate mount destination: " ++ destination
  | .config reason => "Configuration error: " ++ reason
  | .pathEscape path reason =>
      "Path escapes the container root: " ++ path ++ ": " ++ reason
  | .mount operation target fault =>
      operation ++ " failed on " ++ target.display ++ ": " ++ fault.text
  | .unsupported feature => "Feature not supported: " ++ feature
  | .io fault => "I/O error: " ++ fault.text
  | .serialization reason => "Serialization error: " ++ reason
  | .malformedJson => "Serialization error"

/-- What the operating system ran into, if it was asked. -/
def fault? : Error → Option Fault
  | .mount _ _ fault => some fault
  | .io fault => some fault
  | _ => none

/-- The kernel's error number behind the failure, if there is one. -/
def errno? (e : Error) : Option Errno := e.fault?.bind Fault.errno?

/-- The diagnostic code of the failure. -/
def code : Error → String
  | .invalidOption .. => "mortise::config::invalid_option"
  | .invalidIdMapping .. => "mortise::config::invalid_idmap"
  | .duplicateDestination .. => "mortise::config::duplicate_destination"
  | .config .. => "mortise::config"
  | .pathEscape .. => "mortise::path_escape"
  | .mount .. => "mortise::mount"
  | .unsupported .. => "mortise::unsupported"
  | .io .. => "mortise::io"
  | .serialization .. => "mortise::serialization"
  | .malformedJson => "mortise::serialization"

/-- A hint on how to mend the configuration or the host. -/
def help : Error → Option String
  | .invalidOption .. => some "Filesystem-specific options must be given as key=value"
  | .duplicateDestination .. =>
      some "Use readonlyPaths or maskedPaths to overlay an existing mount"
  | .unsupported .. => some "Id-mapped mounts need Linux 5.12 or later and filesystem support"
  | _ => none

/-- The message, followed by what the operating system said. -/
def chain (e : Error) : List String :=
  e.message :: (e.fault?.map Fault.text).toList

/-- A file operation refused with this number. -/
def ofErrno (e : Errno) : Error := .io (.os e)

end Error

end ContainerMounts
