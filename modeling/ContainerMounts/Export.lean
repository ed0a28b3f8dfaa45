/-
ContainerMounts.Export — plans, reports and mount tables as JSON.

JSON can hold text only, so a value with a path that is no UTF-8 has no
JSON form.
-/
import ContainerMounts.Executor
import ContainerMounts.Json

namespace ContainerMounts

/-- The path as text. -/
def Path.toJson? (p : Path) : Option Json := p.text?.map .text

/-- A range of ids. -/
def IdRange.toJson (r : IdRange) : Json :=
  .record [("container_id", .ofNat r.container.toNat), ("host_id", .ofNat r.host.toNat),
    ("size", .ofNat r.size.toNat)]

/-- A table of id ranges. -/
def IdMapping.toJson (m : IdMapping) : Json := .array (m.ranges.map IdRange.toJson)

/-- The tables of a mount. -/
def OwnerMapping.toJson (m : OwnerMapping) : Json :=
  .record [("uid", m.uid.toJson), ("gid", m.gid.toJson)]

/-- Options, axis by axis. -/
def MountOptions.toJson (o : MountOptions) : Json :=
  .record [("access", .text o.access.name), ("atime", .text o.atime.name),
    ("exec", .text (o.exec.name "exec")), ("dev", .text (o.dev.name "dev")),
    ("suid", .text (o.suid.name "suid")), ("sync", .text o.sync.name),
    ("bind", .text o.bind.name), ("idmap", .text o.idmap.name),
    ("copy_symlink", .bool o.copySymlink),
    ("propagation", .ofOption (o.propagation.map fun p => .text p.name)),
    ("data", .texts o.data)]

/-- A kind of mount. -/
def MountKind.toJson : MountKind → Json
  | .bind => .text "bind"
  | .tmpfs => .text "tmpfs"
  | .proc => .text "proc"
  | .sysfs => .text "sysfs"
  | .cgroup => .text "cgroup"
  | .devpts => .text "devpts"
  | .other fsType => .record [("other", .text fsType)]

/-- A declared mount. -/
def MountRequest.toJson (r : MountRequest) : Json :=
  .record [("destination", .text r.destination), ("kind", r.kind.toJson),
    ("source", .ofOption (r.source.map .text)), ("options", .texts r.options),
    ("uid_mappings", .ofOption (r.uidMapping.map IdMapping.toJson)),
    ("gid_mappings", .ofOption (r.gidMapping.map IdMapping.toJson))]

/-- The source of a mount. -/
def MountSource.toJson? : MountSource → Option Json
  | .path real kind => do
      let path ← real.toJson?
      return .record [("kind", .text "path"), ("path", path), ("file_kind", .text kind.name)]
  | .symlink text => do
      let link ← text.toJson?
      return .record [("kind", .text "symlink"), ("link", link)]
  | .virtual name => some (.record [("kind", .text "virtual"), ("name", .text name)])
  | .target => some (.record [("kind", .text "target")])

/-- The word for the phase. -/
def Phase.name : Phase → String
  | mount => "mount"
  | overlay => "overlay"

/-- The word for the protection. -/
def OverlayKind.name : OverlayKind → String
  | readonly => "readonly"
  | masked => "masked"

/-- A planned operation. -/
def MountOp.toJson? (op : MountOp) : Option Json := do
  let target ← op.target.toJson?
  let source ← op.source.toJson?
  return .record [("request", op.request.toJson), ("target", target), ("source", source),
    ("options", op.options.toJson), ("depth", .ofNat op.depth), ("phase", .text op.phase.name),
    ("overlay", .ofOption (op.overlay.map fun kind => .text kind.name)),
    ("idmap", .ofOption (op.idmap.map OwnerMapping.toJson))]

/-- A plan. -/
def MountPlan.toJson? (plan : MountPlan) : Option Json := do
  return .record [("ops", .array (← plan.ops.mapM MountOp.toJson?))]

/-- A line of a report. -/
def ReportEntry.toJson? (entry : ReportEntry) : Option Json := do
  let target ← entry.target.toJson?
  let strategy := match entry.outcome.strategy? with
    | some s => [("strategy", Json.text s.name)]
    | none => []
  return .record ([("target", target), ("outcome", .text entry.outcome.name)] ++ strategy)

/-- A report. -/
def ExecutionReport.toJson? (report : ExecutionReport) : Option Json := do
  return .record [("entries", .array (← report.entries.mapM ReportEntry.toJson?))]

/-- A live mount. -/
def MountRecord.toJson? (r : MountRecord) : Option Json := do
  let target ← r.target.toJson?
  return .record [("target", target), ("fs_type", .text r.fsType), ("source", .text r.source),
    ("vfs_options", .texts r.vfsOptions), ("fs_options", .texts r.fsOptions)]

/-- A table of live mounts. -/
def MountTable.toJson? (table : MountTable) : Option Json := do
  return .array (← table.mapM MountRecord.toJson?)

end ContainerMounts
