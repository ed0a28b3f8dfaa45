/-
ContainerMounts.Config — the part of a container's runtime configuration
that concerns mounts.

`RuntimeConfig.ofText` reads the text of a configuration file,
`RuntimeConfig.load` the file itself, and `RuntimeConfig.toJson` writes
what was read, without empty lists and absent values.
-/
import ContainerMounts.FileTree.Lookup
import ContainerMounts.IdMapping
import ContainerMounts.Json.Reader
import ContainerMounts.Json.Record
import ContainerMounts.Namespaces

namespace ContainerMounts

/-! ## What a configuration says -/

/-- The container's root filesystem. -/
structure RootConfig where
  path : String
  readonly : Bool
  deriving DecidableEq, Repr

/-- An entry of the list of mounts. -/
structure MountConfig where
  destination : String
  fsType : Option String
  source : Option String
  options : List String
  uidMappings : List IdRange
  gidMappings : List IdRange
  deriving DecidableEq, Repr

/-- A namespace to make, or to join at a path. -/
structure NamespaceConfig where
  kind : NamespaceKind
  path : Option String
  deriving DecidableEq, Repr

/-- The part of a configuration for this kernel. -/
structure LinuxConfig where
  uidMappings : List IdRange
  gidMappings : List IdRange
  namespaces : List NamespaceConfig
  rootfsPropagation : Option String
  maskedPaths : List String
  readonlyPaths : List String
  deriving DecidableEq, Repr

/-- A runtime configuration. -/
structure RuntimeConfig where
  version : String
  root : Option RootConfig
  mounts : List MountConfig
  linux : Option LinuxConfig
  deriving DecidableEq, Repr

namespace RuntimeConfig

/-- The namespaces that the container gets of its own. -/
def namespaces (c : RuntimeConfig) : Namespaces :=
  match c.linux with
  | some linux => Namespaces.ofKinds (linux.namespaces.map (·.kind))
  | none => {}

end RuntimeConfig

/-! ## Reading -/

/-- A range of ids. -/
def IdRange.ofJson? (value : Json) : Option IdRange := do
  match ← value.fields? ["containerID", "hostID", "size"] 3 with
  | [container, host, size] =>
      return {
        container := ← Json.required Json.readId container
        host := ← Json.required Json.readId host
        size := ← Json.required Json.readId size }
  | _ => none

/-- The root filesystem. -/
def RootConfig.ofJson? (value : Json) : Option RootConfig := do
  match ← value.fields? ["path", "readonly"] 1 with
  | [path, readonly] =>
      return {
        path := ← Json.required Json.readText path
        readonly := ← Json.withDefault false Json.readBool readonly }
  | _ => none

/-- A mount entry. -/
def MountConfig.ofJson? (value : Json) : Option MountConfig := do
  match ← value.fields?
      ["destination", "type", "source", "options", "uidMappings", "gidMappings"] 3 with
  | [destination, fsType, source, options, uidMappings, gidMappings] =>
      return {
        destination := ← Json.required Json.readText destination
        fsType := ← Json.optional Json.readText fsType
        source := ← Json.optional Json.readText source
        options := ← Json.withDefault [] (Json.readList Json.readText) options
        uidMappings := ← Json.withDefault [] (Json.readList IdRange.ofJson?) uidMappings
        gidMappings := ← Json.withDefault [] (Json.readList IdRange.ofJson?) gidMappings }
  | _ => none

/-- A kind of namespace: its word, or a record of that one field with the
value null. -/
def NamespaceKind.ofJson? : Json → Option NamespaceKind
  | .string (some word) => ofName? word
  | .object [(some word, .null)] => ofName? word
  | _ => none

/-- A namespace. -/
def NamespaceConfig.ofJson? (value : Json) : Option NamespaceConfig := do
  match ← value.fields? ["type", "path"] 2 with
  | [kind, path] =>
      return {
        kind := ← Json.required NamespaceKind.ofJson? kind
        path := ← Json.optional Json.readText path }
  | _ => none

/-- The part for this kernel. -/
def LinuxConfig.ofJson? (value : Json) : Option LinuxConfig := do
  match ← value.fields?
      ["uidMappings", "gidMappings", "namespaces", "rootfsPropagation", "maskedPaths",
       "readonlyPaths"] 4 with
  | [uidMappings, gidMappings, namespaces, rootfsPropagation, maskedPaths, readonlyPaths] =>
      return {
        uidMappings := ← Json.withDefault [] (Json.readList IdRange.ofJson?) uidMappings
        gidMappings := ← Json.withDefault [] (Json.readList IdRange.ofJson?) gidMappings
        namespaces := ← Json.withDefault [] (Json.readList NamespaceConfig.ofJson?) namespaces
        rootfsPropagation := ← Json.optional Json.readText rootfsPropagation
        maskedPaths := ← Json.withDefault [] (Json.readList Json.readText) maskedPaths
        readonlyPaths := ← Json.withDefault [] (Json.readList Json.readText) readonlyPaths }
  | _ => none

namespace RuntimeConfig

/-- The version of a configuration that gives none. -/
def defaultVersion : String := "1.2.0"

/-- A whole configuration. -/
def ofJson? (value : Json) : Option RuntimeConfig := do
  match ← value.fields? ["ociVersion", "root", "mounts", "linux"] 4 with
  | [version, root, mounts, linux] =>
      return {
        version := ← Json.withDefault defaultVersion Json.readText version
        root := ← Json.optional RootConfig.ofJson? root
        mounts := ← Json.withDefault [] (Json.readList MountConfig.ofJson?) mounts
        linux := ← Json.optional LinuxConfig.ofJson? linux }
  | _ => none

/-- The configuration that the text holds. -/
def ofText (text : String) : Except Error RuntimeConfig :=
  match (Json.parse text).bind ofJson? with
  | some config => .ok config
  | none => .error .malformedJson

/-- The configuration in a file with these bytes. -/
def ofBytes (bytes : List UInt8) : Except Error RuntimeConfig :=
  match Utf8.text? bytes with
  | some text => ofText text
  | none => .error (.io .notUtf8)

/-- The configuration in the file at the path. -/
def load (tree : FileTree) (path : Path) : Except Error RuntimeConfig := do
  ofText (← (tree.readText path).mapError .io)

end RuntimeConfig

/-! ## Writing -/

/-- The field, unless it would be an empty list. -/
def Json.listField (name : String) (items : List Json) : List (String × Json) :=
  if items.isEmpty then [] else [(name, .array items)]

/-- The field, unless it has no value. -/
def Json.optionField (name : String) (value : Option Json) : List (String × Json) :=
  match value with
  | some v => [(name, v)]
  | none => []

/-- A range of ids. -/
def IdRange.toConfigJson (r : IdRange) : Json :=
  .record [("containerID", .ofNat r.container.toNat), ("hostID", .ofNat r.host.toNat),
    ("size", .ofNat r.size.toNat)]

/-- The root filesystem. -/
def RootConfig.toJson (c : RootConfig) : Json :=
  .record [("path", .text c.path), ("readonly", .bool c.readonly)]

/-- A mount entry. -/
def MountConfig.toJson (c : MountConfig) : Json :=
  .record ([("destination", .text c.destination)]
    ++ Json.optionField "type" (c.fsType.map .text)
    ++ Json.optionField "source" (c.source.map .text)
    ++ Json.listField "options" (c.options.map .text)
    ++ Json.listField "uidMappings" (c.uidMappings.map IdRange.toConfigJson)
    ++ Json.listField "gidMappings" (c.gidMappings.map IdRange.toConfigJson))

/-- A namespace. -/
def NamespaceConfig.toJson (c : NamespaceConfig) : Json :=
  .record ([("type", .text c.kind.name)] ++ Json.optionField "path" (c.path.map .text))

/-- The part for this kernel. -/
def LinuxConfig.toJson (c : LinuxConfig) : Json :=
  .record (Json.listField "uidMappings" (c.uidMappings.map IdRange.toConfigJson)
    ++ Json.listField "gidMappings" (c.gidMappings.map IdRange.toConfigJson)
    ++ Json.listField "namespaces" (c.namespaces.map NamespaceConfig.toJson)
    ++ Json.optionField "rootfsPropagation" (c.rootfsPropagation.map .text)
    ++ Json.listField "maskedPaths" (c.maskedPaths.map .text)
    ++ Json.listField "readonlyPaths" (c.readonlyPaths.map .text))

/-- A whole configuration. -/
def RuntimeConfig.toJson (c : RuntimeConfig) : Json :=
  .record ([("ociVersion", .text c.version)]
    ++ Json.optionField "root" (c.root.map RootConfig.toJson)
    ++ Json.listField "mounts" (c.mounts.map MountConfig.toJson)
    ++ Json.optionField "linux" (c.linux.map LinuxConfig.toJson))

end ContainerMounts
