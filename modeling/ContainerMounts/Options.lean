/-
ContainerMounts.Options — the options of a mount.

An option list sets a handful of independent axes (`MountOptions`). Each
token is one `Setting`, and a setting replaces the value of its axis, so
the last token of an axis wins; filesystem-specific `key=value` tokens
are collected in order. `MountOptions.parse` refuses the first token that
is no setting.
-/
import ContainerMounts.Error

namespace ContainerMounts

/-! ## The axes -/

/-- Whether a mount can be written through. The recursive forms ask for
the same of every mount below. -/
inductive Access where
  | unset
  | readWrite
  | readOnly
  | recursiveReadOnly
  | recursiveReadWrite
  deriving DecidableEq, Repr

/-- How access times are kept. -/
inductive AtimeMode where
  | unset
  | relatime
  | strictatime
  | noatime
  deriving DecidableEq, Repr

/-- Whether something is allowed on a mount. -/
inductive Allowance where
  | unset
  | allowed
  | denied
  deriving DecidableEq, Repr

/-- Which writes are synchronous. -/
inductive SyncMode where
  | unset
  | sync
  | dirsync
  deriving DecidableEq, Repr

/-- Whether the mount binds an existing tree. -/
inductive BindMode where
  | none
  | bind
  | rbind
  deriving DecidableEq, Repr

/-- Whether owners are presented through an id mapping. -/
inductive IdmapMode where
  | none
  | idmap
  | ridmap
  deriving DecidableEq, Repr

/-- Which mount events a mount exchanges with its copies. -/
inductive PropagationMode where
  | privately
  | shared
  | slave
  | unbindable
  deriving DecidableEq, Repr

/-- A propagation mode, for one mount or for all below it as well. -/
structure Propagation where
  mode : PropagationMode
  recursive : Bool
  deriving DecidableEq, Repr

namespace Access

/-- The word for the value. -/
def name : Access → String
  | unset => "default"
  | readWrite => "rw"
  | readOnly => "ro"
  | recursiveReadOnly => "rro"
  | recursiveReadWrite => "rrw"

/-- Writing is to be refused. -/
def isReadonly : Access → Bool
  | readOnly | recursiveReadOnly => true
  | _ => false

/-- Writing is to be possible. -/
def isWritable : Access → Bool
  | readWrite | recursiveReadWrite => true
  | _ => false

end Access

namespace AtimeMode

/-- The word for the value. -/
def name : AtimeMode → String
  | unset => "default"
  | relatime => "relatime"
  | strictatime => "strictatime"
  | noatime => "noatime"

end AtimeMode

/-- The word for the value on the axis whose subject is `subject`, as in
`exec` and `noexec`. -/
def Allowance.name (subject : String) : Allowance → String
  | unset => "default"
  | allowed => subject
  | denied => "no" ++ subject

/-- The word for the value. -/
def SyncMode.name : SyncMode → String
  | unset => "default"
  | sync => "sync"
  | dirsync => "dirsync"

/-- The word for the value. -/
def BindMode.name : BindMode → String
  | none => "none"
  | bind => "bind"
  | rbind => "rbind"

/-- The word for the value. -/
def IdmapMode.name : IdmapMode → String
  | none => "none"
  | idmap => "idmap"
  | ridmap => "ridmap"

namespace Propagation

/-- The word for the mode of one mount. -/
def modeName : PropagationMode → String
  | .privately => "private"
  | .shared => "shared"
  | .slave => "slave"
  | .unbindable => "unbindable"

/-- The word for the value; `r` in front stands for recursive. -/
def name (p : Propagation) : String :=
  if p.recursive then "r" ++ modeName p.mode else modeName p.mode

/-- The default of a container's root. -/
def rprivate : Propagation := ⟨.privately, true⟩

/-- Events come in from the host and none go out. -/
def rslave : Propagation := ⟨.slave, true⟩

/-- The value with this word. -/
def ofName? : String → Option Propagation
  | "private" => some ⟨.privately, false⟩
  | "rprivate" => some ⟨.privately, true⟩
  | "shared" => some ⟨.shared, false⟩
  | "rshared" => some ⟨.shared, true⟩
  | "slave" => some ⟨.slave, false⟩
  | "rslave" => some ⟨.slave, true⟩
  | "unbindable" => some ⟨.unbindable, false⟩
  | "runbindable" => some ⟨.unbindable, true⟩
  | _ => none

/-- The value with this word, or why there is none. -/
def parse (word : String) : Except Error Propagation :=
  match ofName? word with
  | some p => .ok p
  | none => .error (.invalidOption word "unknown propagation mode")

theorem ofName?_name (p : Propagation) : ofName? p.name = some p := by
  obtain ⟨mode, recursive⟩ := p
  cases mode <;> cases recursive <;> rfl

end Propagation

/-! ## Settings -/

/-- What one token of an option list says. -/
inductive Setting where
  /-- Nothing, as `defaults` does. -/
  | nothing
  | access (value : Access)
  | atime (value : AtimeMode)
  | exec (value : Allowance)
  | dev (value : Allowance)
  | suid (value : Allowance)
  | sync (value : SyncMode)
  | bind (value : BindMode)
  | idmap (value : IdmapMode)
  | copySymlink
  | propagation (value : Propagation)
  /-- A word for the filesystem itself. -/
  | data (token : String)
  deriving DecidableEq, Repr

namespace Setting

/-- The filesystem options that have no value. -/
def bareData : List String := ["newinstance", "userxattr"]

/-- A token with a key of at least one character before its first `=`. -/
def isKeyValue (token : String) : Bool :=
  match token.toList with
  | [] => false
  | c :: rest => c != '=' && rest.contains '='

/-- Whether the token is handed on to the filesystem. -/
def isData (token : String) : Bool := bareData.contains token || isKeyValue token

/-- What the token says, if it is known. -/
def ofToken? (token : String) : Option Setting :=
  match token with
  | "defaults" => some .nothing
  | "ro" => some (.access .readOnly)
  | "rw" => some (.access .readWrite)
  | "rro" => some (.access .recursiveReadOnly)
  | "rrw" => some (.access .recursiveReadWrite)
  | "suid" => some (.suid .allowed)
  | "nosuid" => some (.suid .denied)
  | "dev" => some (.dev .allowed)
  | "nodev" => some (.dev .denied)
  | "exec" => some (.exec .allowed)
  | "noexec" => some (.exec .denied)
  | "relatime" => some (.atime .relatime)
  | "strictatime" => some (.atime .strictatime)
  | "noatime" => some (.atime .noatime)
  | "atime" => some (.atime .unset)
  | "norelatime" => some (.atime .unset)
  | "nostrictatime" => some (.atime .unset)
  | "sync" => some (.sync .sync)
  | "dirsync" => some (.sync .dirsync)
  | "async" => some (.sync .unset)
  | "bind" => some (.bind .bind)
  | "rbind" => some (.bind .rbind)
  | "copy-symlink" => some .copySymlink
  | "idmap" => some (.idmap .idmap)
  | "ridmap" => some (.idmap .ridmap)
  | _ =>
      match Propagation.ofName? token with
      | some p => some (.propagation p)
      | none => if isData token then some (.data token) else none

end Setting

/-! ## Option lists -/

/-- The options of a mount, axis by axis. -/
structure MountOptions where
  access : Access := .unset
  atime : AtimeMode := .unset
  exec : Allowance := .unset
  dev : Allowance := .unset
  suid : Allowance := .unset
  sync : SyncMode := .unset
  bind : BindMode := .none
  idmap : IdmapMode := .none
  /-- A source that is a symlink is copied as a link. -/
  copySymlink : Bool := false
  /-- Propagation to set once the mount is there. -/
  propagation : Option Propagation := none
  /-- Words for the filesystem, in order. -/
  data : List String := []
  deriving DecidableEq, Repr

namespace MountOptions

/-- The options after one more setting. -/
def set (o : MountOptions) : Setting → MountOptions
  | .nothing => o
  | .access v => { o with access := v }
  | .atime v => { o with atime := v }
  | .exec v => { o with exec := v }
  | .dev v => { o with dev := v }
  | .suid v => { o with suid := v }
  | .sync v => { o with sync := v }
  | .bind v => { o with bind := v }
  | .idmap v => { o with idmap := v }
  | .copySymlink => { o with copySymlink := true }
  | .propagation v => { o with propagation := some v }
  | .data token => { o with data := o.data ++ [token] }

/-- The options after one more token. -/
def setToken (o : MountOptions) (token : String) : Except Error MountOptions :=
  match Setting.ofToken? token with
  | some s => .ok (o.set s)
  | none => .error (.invalidOption token "unknown mount option")

/-- The options that the tokens ask for, read from left to right. -/
def parse (tokens : List String) : Except Error MountOptions := tokens.foldlM setToken {}

/-- Writing is to be refused. -/
def isReadonly (o : MountOptions) : Bool := o.access.isReadonly

/-- Writing is to be refused on every mount below as well. -/
def isRecursiveReadonly (o : MountOptions) : Bool := o.access == .recursiveReadOnly

/-- A mount without a declared type is a bind under these options. -/
def impliesBind (o : MountOptions) : Bool := o.bind != .none || o.isRecursiveReadonly

/-- Some axis is explicitly opened. -/
def relaxesAny (o : MountOptions) : Bool :=
  o.access.isWritable || o.suid == .allowed || o.dev == .allowed || o.exec == .allowed

/-- A bind takes the mounts below along. -/
def isRecursiveBind (o : MountOptions) : Bool := o.bind == .rbind

/-- The words for the filesystem, as it reads them. -/
def dataText (o : MountOptions) : String := ",".intercalate o.data

/-- A bind has to be followed by a remount, since the bind call itself
takes no flags. -/
def needsRemount (o : MountOptions) : Bool :=
  o.isReadonly || o.relaxesAny || o.atime != .unset || o.exec == .denied || o.dev == .denied
    || o.suid == .denied || o.sync != .unset

end MountOptions

end ContainerMounts
