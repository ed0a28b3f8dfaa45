/-
ContainerMounts.IdMappedBind — binds whose owners are presented through an
id mapping.

The kernel takes the mapping from a user namespace. A helper process
makes one, `createUserNamespace` writes the tables into it (its files are
opened again when the opening is interrupted), and
`bindIdMapped` attaches it to a copy of the source tree before the copy
appears at the target. `probeIdMapping` goes the same way up to the
attachment and tells whether the host supports it.
-/
import ContainerMounts.IdMapping
import ContainerMounts.Machine.MountCalls

namespace ContainerMounts

namespace Run

/-! ## The user namespace -/

/-- A file of the helper process, opened for writing, and its content. -/
def writeMap (file : MapFile) (text : String) : Run (Option Errno) :=
  uninterrupted (issue file.callKind (.write file text))

/-- The kernel refused a file of the helper process. -/
def mapRefused (file : MapFile) (e : Errno) : Error :=
  .invalidIdMapping ("failed to write " ++ file.name ++ ": " ++ (Fault.os e).text)

/-- A table of the helper process. -/
def writeTable (file : MapFile) (mapping : IdMapping) : Run Unit := do
  match ← writeMap file mapping.kernelText with
  | none => return ()
  | some e => throw (mapRefused file e)

/-- The helper process may not change its groups. A kernel without the file
for it needs no denial. -/
def denySetgroups : Run Unit := do
  match ← writeMap .setgroups "deny" with
  | none => return ()
  | some e => if e = .noEntry then return () else throw (mapRefused .setgroups e)

/-- A user namespace with these tables. -/
def createUserNamespace (mapping : OwnerMapping) : Run Unit := do
  if let some e ← attempt .fork then throw (.ofErrno e)
  if let some _ ← attempt .helperUnshare then throw (.unsupported "user namespaces")
  writeTable .uidMap mapping.uid
  denySetgroups
  writeTable .gidMap mapping.gid
  if let some e ← uninterrupted (attempt .userNamespace) then throw (.ofErrno e)

/-! ## The tree -/

/-- The flags of a copy of a mount tree. -/
def cloneFlags (recursive : Bool) : AtFlags :=
  if recursive then AtFlags.treeClone ||| AtFlags.treeCloseOnExec ||| AtFlags.recursive
  else AtFlags.treeClone ||| AtFlags.treeCloseOnExec

/-- The flags of an attribute change to a copied tree. -/
def copiedFlags (recursive : Bool) : AtFlags :=
  if recursive then AtFlags.emptyPath ||| AtFlags.recursive else AtFlags.emptyPath

/-- The answer to a request to copy the tree at the path: the refusal, or
what the files say. -/
def treeAnswer (tree : FileTree) (refusal : Option Errno) (path : Path) :
    Except Errno (List Name) :=
  match refusal with
  | some e => .error e
  | none => tree.locate true path

/-- A copy of the mount tree at the path, by the real path of its root. -/
def cloneTree (path : Path) (recursive : Bool) : Run (Except Errno Path) := do
  if path.nulPosition?.isSome then return .error .invalid
  let call := KernelCall.openTree path (cloneFlags recursive)
  let refusal ← attempt .openTree
  match treeAnswer (← tree) refusal path with
  | .ok place =>
      record call none
      return .ok (Path.ofNames place)
  | .error e =>
      record call (some e)
      return .error e

/-- Attributes of a copied tree. -/
def setAttrOf (tree : Path) (recursive : Bool) (change : AttrChange) : Run (Option Errno) :=
  issue .mountSetattr (.setAttrOf tree (copiedFlags recursive) change)

/-- A copied tree, attached to the target. -/
def attachTree (tree : Path) (target : Spot) : Run (Option Errno) :=
  if target.path.nulPosition?.isSome then return some .invalid
  else issue .moveMount (.moveMount tree target)

/-- The attribute change that attaches a user namespace, with further
attributes. -/
def idmapChange (set clear : MountAttrs) : AttrChange :=
  { set := MountAttrs.idmap ||| set, clear, userNamespace := true }

/-- The source's tree on the target, with owners as the mapping presents
them and the attributes changed. -/
def bindIdMapped (source : Path) (target : Spot) (recursive : Bool) (mapping : OwnerMapping)
    (set clear : MountAttrs) : Run Unit := do
  createUserNamespace mapping
  match ← cloneTree source recursive with
  | .error e => throw (.mount "open_tree" source (.os e))
  | .ok tree => do
      if let some e ← setAttrOf tree recursive (idmapChange set clear) then
        throw (.mount "mount_setattr idmap" target.path (.os e))
      if let some e ← attachTree tree target then
        throw (.mount "move_mount" target.path (.os e))

end Run

/-! ## Probing -/

/-- Whether a host supports id-mapped mounts. -/
inductive IdMapSupport where
  | supported
  /-- The kernel or the filesystem says no. -/
  | unsupported
  /-- It could not be found out. -/
  | indeterminate
  deriving DecidableEq, Repr

namespace IdMapSupport

/-- The word for the answer. -/
def name : IdMapSupport → String
  | supported => "supported"
  | unsupported => "unsupported"
  | indeterminate => "indeterminate"

/-- What a refusal says about support. -/
def ofRefusal (e : Errno) : IdMapSupport :=
  if e = .notImplemented ∨ e = .invalid ∨ e = .notSupported ∨ e = .perm then unsupported
  else indeterminate

/-- The table of a probe: one id, presented as itself. -/
def probeTable : IdMapping := ⟨[⟨0, 0, 1⟩]⟩

end IdMapSupport

namespace Run

/-- The process may administer the system, as far as the kernel tells. -/
def mayAdminister : Run Bool := do
  match ← attempt .capget with
  | some _ => return false
  | none => return (← read).admin

/-- A user namespace with the probe's table, and whether it came about. -/
def tryUserNamespace : Run Bool := do
  try
    createUserNamespace ⟨IdMapSupport.probeTable, IdMapSupport.probeTable⟩
    return true
  catch _ => return false

/-- Whether a bind of the path could be id-mapped. -/
def probeIdMapping (path : Path) : Run IdMapSupport := do
  if !(← mayAdminister) then return .indeterminate
  if !(← tryUserNamespace) then return .indeterminate
  match ← cloneTree path false with
  | .error e => return .ofRefusal e
  | .ok tree =>
      match ← setAttrOf tree false (idmapChange 0 0) with
      | none => return .supported
      | some e => return .ofRefusal e

end Run

end ContainerMounts
