/-
ContainerMounts.Main — the program.

A command is rehearsed: it runs on a picture of the host in which every
privileged call is granted, so no mount and no file of the host changes.
The picture holds what the command may look at, which is the bundle's
configuration, the sources and destinations that it names and the host's
control groups. Permission bits are not known to it, and of a symlink only
where it leads.
-/
import ContainerMounts.CommandLine
import ContainerMounts.MountTable.Mountinfo

namespace ContainerMounts.Program

/-! ## A picture of the host -/

/-- The path as the file operations of the system take it. -/
def pathText (names : List Name) : String := (Path.ofNames names).display

/-- The text of a link that leads to `real`: below the container's root it is
taken as the container sees it. -/
def linkText (rootfs : Path) (real : Path) : Path :=
  if real.under rootfs then
    Path.ofNames (real.names.drop rootfs.names.length)
  else real

/-- What is at an entry of a directory, without looking into it. -/
def lookAt (rootfs : Path) (entry : IO.FS.DirEntry) : IO (Option Node) := do
  try
    match (← entry.path.symlinkMetadata).type with
    | .dir => return some (.dir 0o755 [])
    | .file => return some (.file 0o644 [])
    | .symlink =>
        let real ← IO.FS.realPath entry.path
        return some (.symlink (linkText rootfs (Path.ofString real.toString)))
    | .other => return some .charDevice
  catch _ => return none

/-- The picture with everything on the way by the steps from `here`. -/
def addWay (rootfs : Path) : FileTree → List Name → List Step → IO FileTree
  | tree, _, [] => return tree
  | tree, here, .up :: rest => addWay rootfs tree here.dropLast rest
  | tree, here, .down name :: rest => do
      let place := here ++ [name]
      let entry := IO.FS.DirEntry.mk (pathText here) (Path.mk name).display
      match ← lookAt rootfs entry with
      | none => return tree
      | some node =>
          let tree := if (tree.at? place).isSome then tree else tree.put place node
          addWay rootfs tree place rest

/-- The picture with everything on the way to the path and, if links are met,
on the way to where they lead. -/
def addPath (rootfs : Path) (tree : FileTree) (path : Path) : IO FileTree := do
  let tree ← addWay rootfs tree [] path.steps
  try
    let real ← IO.FS.realPath path.display
    addWay rootfs tree [] (Path.ofString real.toString).steps
  catch _ => return tree

/-- The picture with the paths. -/
def addPaths (rootfs : Path) (tree : FileTree) (paths : List Path) : IO FileTree :=
  paths.foldlM (addPath rootfs) tree

/-- The entries of a directory, or none. -/
def entriesOf (path : Path) : IO (List Path) := do
  try
    let entries ← (← IO.FS.realPath path.display).readDir
    return entries.toList.map fun entry => path.join (Path.ofString entry.fileName)
  catch _ => return []

/-- The content of a file, or none. -/
def contentOf? (path : Path) : IO (Option (List UInt8)) := do
  try return some (← IO.FS.readBinFile path.display).toList
  catch _ => return none

/-! ## What a command looks at -/

/-- The bundle of a command and the root filesystem given with it. -/
def bundleOf? : CommandLine.Command → Option (Path × Option Path)
  | .plan bundle rootfs => some (bundle, rootfs)
  | .mount bundle rootfs _ _ => some (bundle, rootfs)
  | _ => none

/-- The command with its paths seen from the directory. -/
def fromDirectory (directory : Path) : CommandLine.Command → CommandLine.Command
  | .plan bundle rootfs => .plan (directory.join bundle) (rootfs.map directory.join)
  | .mount bundle rootfs unshare printTable =>
      .mount (directory.join bundle) (rootfs.map directory.join) unshare printTable
  | .mountinfo target => .mountinfo target
  | .checkIdmappedMounts path => .checkIdmappedMounts (directory.join path)

/-- The sources that a configuration names. -/
def sourcesOf (config : RuntimeConfig) (bundle : Path) : List Path :=
  config.mounts.filterMap fun m => m.source.map fun source => bundle.join (Path.ofString source)

/-- The destinations that a configuration names, below the root filesystem. -/
def destinationsOf (config : RuntimeConfig) (rootfs : Path) : List Path :=
  let protectedPaths := match config.linux with
    | some linux => linux.readonlyPaths ++ linux.maskedPaths
    | none => []
  (config.mounts.map (·.destination) ++ protectedPaths).map fun destination =>
    ⟨rootfs.bytes ++ slash :: (Path.ofString destination).bytes⟩

/-- The picture with what a bundle's command looks at. -/
def addBundle (paths : HostPaths) (tree : FileTree) (bundle : Path) (rootfs : Option Path) :
    IO FileTree := do
  let file := bundle.join (Path.ofString "config.json")
  let tree ← addPath Path.root tree file
  match ← contentOf? file, tree.find true file with
  | some content, .ok place =>
      let tree := tree.put place (.file 0o644 content)
      match RuntimeConfig.ofBytes content with
      | .error _ => return tree
      | .ok config =>
          let named := config.root.map fun root => bundle.join (Path.ofString root.path)
          let root := (rootfs <|> named).getD bundle
          let tree ← addPaths Path.root tree (sourcesOf config bundle)
          let tree ← addPaths Path.root tree (← entriesOf paths.cgroupRoot)
          addPaths root tree (root :: destinationsOf config root)
  | _, _ => return tree

/-- The picture of the host for a command. -/
def pictureFor (paths : HostPaths) (command : CommandLine.Command) : IO FileTree := do
  let tree ← addPaths Path.root (.dir 0o755 [])
    [paths.cgroupRoot, paths.sysfsRoot, paths.nullDevice]
  match command with
  | .checkIdmappedMounts path => addPath Path.root tree path
  | command =>
      match bundleOf? command with
      | some (bundle, rootfs) => addBundle paths tree bundle rootfs
      | none => return tree

/-! ## The host -/

/-- A place of the host that a variable of the environment may move. -/
def placeFrom (name : String) (default : Path) : IO Path := do
  return ((← IO.getEnv name).map Path.ofString).getD default

/-- Where things are on this host. -/
def hostPaths : IO HostPaths := do
  let usual : HostPaths := {}
  return { usual with
    cgroupRoot := ← placeFrom "MORTISE_CGROUP_ROOT" usual.cgroupRoot
    sysfsRoot := ← placeFrom "MORTISE_SYSFS_ROOT" usual.sysfsRoot }

/-- The present mount table. -/
def presentTable : IO (Except Error MountTable) := do
  let file ← placeFrom "MORTISE_MOUNTINFO" (Path.ofString "/proc/self/mountinfo")
  match ← contentOf? file with
  | none => return .error (.ofErrno .noEntry)
  | some bytes =>
      match Utf8.text? bytes with
      | some text => return Mountinfo.parse text
      | none => return .error (.io .notUtf8)

/-! ## Running -/

/-- How the program is called. -/
def usage : String :=
  "Usage: [--debug] plan --bundle <path> [--rootfs <path>]\n" ++
  "       [--debug] mount --bundle <path> [--rootfs <path>] [--unshare] [--print-mountinfo]\n" ++
  "       [--debug] mountinfo [--target <path>]\n" ++
  "       [--debug] check-feature idmapped-mounts <path>"

/-- A failure on the error stream, its outermost text first. -/
def report (chain : CommandLine.FailureChain) : IO Unit := do
  for text in chain do IO.eprintln text

/-- A command, rehearsed; tells the exit status. -/
def rehearse (command : CommandLine.Command) (debug : Bool) : IO UInt32 := do
  let command := fromDirectory (Path.ofString (← IO.currentDir).toString) command
  let paths ← hostPaths
  let tree ← pictureFor paths command
  let result := CommandLine.conclude (.granting paths (← presentTable)) { tree } command
  for item in result.printed do IO.print item.text
  if debug then IO.eprintln (toString result.machine.events.length ++ " kernel calls")
  match result.outcome with
  | .ok status => return UInt32.ofNat status
  | .error chain =>
      report chain
      return 1

end ContainerMounts.Program

/-- The program. -/
def main (arguments : List String) : IO UInt32 := do
  match ContainerMounts.CommandLine.readInvocation arguments with
  | .ok invocation => ContainerMounts.Program.rehearse invocation.command invocation.debug
  | .error reason =>
      let usage := ContainerMounts.Program.usage
      if reason = .asked then IO.println usage else IO.eprintln usage
      return UInt32.ofNat reason.status
