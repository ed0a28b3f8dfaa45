/-
ContainerMounts.Proofs.Overlays — overlays add restrictions and touch no
file.

An overlay makes a path read-only or hides what is there. It changes no
file, and makes no call unless the path resolves to something that exists.
What it does then is a few calls, which `OverlayCalls` lists to the last
flag. The flags come from the mount table as it is when they are needed,
which for a hidden file is twice: before the null device is bound, since
what restricts the path has to go on, and after, since the device brings
flags of its own (`HiddenFlags`). `apply_overlays` is the statement for an
operation.

A path below a file is no path to skip: the resolution fails, and so does
the operation (`apply_fails_below_file`).
-/
import ContainerMounts.Executor
import ContainerMounts.Proofs.CallContracts
import ContainerMounts.Proofs.Planning
import ContainerMounts.Proofs.Preparation
import ContainerMounts.Proofs.RequestedFlags
import ContainerMounts.Proofs.SampleHost

namespace ContainerMounts

open MountFlags (Apart atimeModes)

/-! ## Flags -/

namespace MountTable

variable {table : MountTable} {p : Path} {wanted : MountFlags}

/-- Wanted flags without an access-time mode leave the ambient one alone. -/
theorem inherit_of_apart (h : Apart wanted atimeModes) :
    table.inherit p wanted = table.ambient p ||| wanted := by
  have hmeets : wanted.meets atimeModes = false := by
    rw [MountFlags.meets, h]
    rfl
  simp [inherit, hmeets]

theorem inherit_readonly :
    table.inherit p MountFlags.readonly = table.ambient p ||| MountFlags.readonly :=
  inherit_of_apart (by decide)

end MountTable

/-- The flags of a hidden file: the restrictions that applied to the path
before, and the flags that the null device brings along. -/
structure HiddenFlags (before after : MountTable) (p : Path) (flags : MountFlags) : Prop where
  readonly : flags.includes MountFlags.readonly = true
  restrictions : ∀ r word flag, before.enclosing p = some r →
    (word, flag) ∈ MountFlags.restrictions → r.hasOption word = true → flags.includes flag = true
  ambient : flags.includes (after.ambient p) = true
  atime : flags &&& atimeModes = after.ambient p &&& atimeModes

theorem hiddenFlags (before after : MountTable) (p : Path) :
    HiddenFlags before after p
      (after.inherit p ((before.inherit p MountFlags.readonly).without atimeModes)) := by
  rw [MountTable.inherit_of_apart MountFlags.apart_without_self]
  constructor
  · refine MountFlags.includes_or_right ?_
    rw [MountFlags.includes_without_of_apart (by decide)]
    exact MountTable.inherit_includes_wanted (by decide)
  · intro r word flag hr hflag hword
    refine MountFlags.includes_or_right ?_
    rw [MountFlags.includes_without_of_apart (MountFlags.apart_restriction hflag (by decide))]
    exact MountTable.inherit_includes hr hword hflag
  · exact MountFlags.includes_or_left (by simp [MountFlags.includes])
  · exact MountFlags.or_and_of_apart MountFlags.apart_without_self

/-! ## What a pinned path leads to -/

namespace Rootfs

open FileTree

variable {rootfs : Rootfs} {tree : FileTree} {top names : List Name} {r : ResolvedPath}
  {spot : Spot} {node : Node}

theorem locate_hostPath (hopen : tree.openDir rootfs.path = .ok top) (hlands : tree.Lands top names)
    {place : List Name} (h : tree.locate true (rootfs.hostPath names) = .ok place) :
    place = top ++ names := by
  have hfound := locate_lands hopen hlands (locate_eq_ok.1 h).1
  exact Except.ok.inj (h.symm.trans hfound)

/-- The names of a held file are those that it was opened by. -/
theorem names_held (hopen : tree.openDir rootfs.path = .ok top) (hlands : tree.Lands top names) :
    (Path.ofNames (top ++ names)).names = top ++ names := by
  obtain ⟨-, htop, -⟩ := openDir_eq_ok.1 hopen
  have hsound : tree.Sound top := by
    obtain ⟨-, hwalk⟩ := locate_eq_ok.1 htop
    exact walk_sound rfl (Sound.nil tree) (fun n hn => Move.plain_of_mem_moves hn) hwalk
  exact Path.names_ofNames (List.forall_mem_append.2
    ⟨hsound.plain, fun n hn => (hlands.fit n hn).toPlainName⟩)

/-- The node at a pinned path is what was found at its names. -/
theorem nodeAt_pinned (hopen : tree.openDir rootfs.path = .ok top) (hroot : r.rootfs = rootfs)
    (hlands : tree.Lands top r.names) (hpinned : Pinned top r spot)
    (h : tree.nodeAt spot = .ok node) : tree.at? (top ++ r.names) = some node := by
  rcases hpinned with rfl | rfl
  · rw [nodeAt, names_held hopen hlands] at h
    cases hat : tree.at? (top ++ r.names) with
    | some found =>
        simp only [hat, Except.ok.injEq] at h
        rw [h]
    | none => simp [hat] at h
  · subst hroot
    obtain ⟨place, hfind, hat⟩ := findNode_eq_ok.1 h
    obtain ⟨-, hlocate⟩ := find_eq_ok.1 hfind
    rwa [← locate_hostPath hopen hlands hlocate]

end Rootfs

/-! ## The calls of an overlay -/

/-- The bind of a tree on itself. -/
def KernelCall.selfBind (spot : Spot) : KernelCall :=
  .mount (some spot) spot none (Contract.bindFlags true) none

/-- The bind of the null device. -/
def KernelCall.nullBind (host : Host) (spot : Spot) : KernelCall :=
  .mount (some (.at host.paths.nullDevice)) spot none (Contract.bindFlags false) none

/-- An empty directory in memory. -/
def KernelCall.emptyDir (spot : Spot) (flags : MountFlags) : KernelCall :=
  .mount (some (Run.sourceName "tmpfs")) spot (some "tmpfs") flags (some "size=0k")

/-- What an overlay of this kind on this node comes to, and its calls, behind
those of `events`. The path is `p`, and `spot` is what it was pinned as. -/
inductive OverlayCalls (host : Host) (events : List Event) (p : Path) (spot : Spot) :
    OverlayKind → Node → Outcome → List Event → Prop where
  | protect {node : Node} {table : MountTable}
      (htable : host.table (events ++ [⟨.selfBind spot, none⟩]) = .ok table) :
      OverlayCalls host events p spot .readonly node .readonly
        [⟨.selfBind spot, none⟩,
          ⟨Contract.remountBindCall p (table.ambient p ||| MountFlags.readonly), none⟩]
  | hideDir {node : Node} {table : MountTable} (hdir : node.isDir = true)
      (htable : host.table events = .ok table) :
      OverlayCalls host events p spot .masked node .masked
        [⟨.emptyDir spot (table.ambient p ||| MountFlags.readonly), none⟩]
  | hideFile {node : Node} {before after : MountTable} {flags : MountFlags}
      (hfile : node.isDir = false) (hbefore : host.table events = .ok before)
      (hafter : host.table (events ++ [⟨.nullBind host spot, none⟩]) = .ok after)
      (hflags : HiddenFlags before after p flags) :
      OverlayCalls host events p spot .masked node .masked
        [⟨.nullBind host spot, none⟩, ⟨Contract.remountBindCall p flags, none⟩]

/-- The overlay was carried out: the path leads to a file below the root, and
the calls on record behind those of the first machine are those for this
file. Each of them was made on the files of the first machine. -/
def Overlaid (rootfs : Rootfs) (host : Host) (m : Machine) (r : ResolvedPath)
    (kind : OverlayKind) (outcome : Outcome) (m' : Machine) : Prop :=
  ∃ top node spot calls, m.tree.openDir rootfs.path = .ok top
    ∧ m.tree.at? (top ++ r.names) = some node ∧ Rootfs.Pinned top r spot
    ∧ OverlayCalls host m.events r.hostPath spot kind node outcome calls
    ∧ m'.log = m.log ++ calls.map fun event => ⟨m.tree, event⟩

namespace Executor

variable {ex : Executor} {host : Host} {m : Machine} {r : ResolvedPath} {target : Path}

/-! ## Carrying out an overlay -/

theorem events_accepted {m₁ m₂ : Machine} {call : KernelCall} (hlog : m₁.log = m.log)
    (h : Accepted m₁ call m₂) : m₂.events = m.events ++ [⟨call, none⟩] := by
  simp [Machine.events, h.log, hlog]

section Exists

variable (hroot : r.rootfs = ex.rootfs)
  (hlands : ∀ top, m.tree.openDir ex.rootfs.path = .ok top → m.tree.Lands top r.names)

include hlands in
theorem protectPath_contract :
    Contract (.only fun _ => True) host m (ex.protectPath r)
      (Overlaid ex.rootfs host m r .readonly) := by
  unfold protectPath
  apply Contract.andThen Rootfs.pin_contract
  intro spot m₁ _ hpin
  obtain ⟨htree, hlog, top, hopen, hpinned⟩ := hpin
  obtain ⟨node, hnode, -⟩ := (hlands top hopen).node
  refine .bind (.bindMount (fun _ => trivial) fun m₂ hbound _ =>
    .bind (.inherit fun table htable _ => ?_))
  refine .bind (.remountBind (fun _ => trivial) fun m₃ hremounted _ => .pure ?_)
  rw [MountTable.inherit_readonly] at hremounted
  rw [events_accepted hlog hbound] at htable
  refine ⟨top, node, spot, _, hopen, hnode, hpinned, .protect htable, ?_⟩
  simp [hremounted.log, hbound.log, hbound.tree, hlog, htree, KernelCall.selfBind]

include hroot hlands in
theorem hidePath_contract :
    Contract (.only fun _ => True) host m (ex.hidePath r)
      (Overlaid ex.rootfs host m r .masked) := by
  unfold hidePath
  apply Contract.andThen Rootfs.pin_contract
  intro spot m₁ _ hpin
  obtain ⟨htree, hlog, top, hopen, hpinned⟩ := hpin
  have hevents : m₁.events = m.events := by rw [Machine.events, hlog, Machine.events]
  refine .bind (.inherit fun before hbefore _ => .bind (.ask fun node hat _ => ?_))
  rw [hevents] at hbefore
  rw [htree] at hat
  -- No file has changed since the resolution, so the node is the one it found.
  have hnode := Rootfs.nodeAt_pinned hopen hroot (hlands top hopen) hpinned hat
  cases hdir : node.isDir with
  | true =>
      refine .bind (.mountFilesystem (fun _ => trivial) fun m₂ hmounted _ => .pure ?_)
      rw [MountTable.inherit_readonly] at hmounted
      refine ⟨top, node, spot, _, hopen, hnode, hpinned, .hideDir hdir hbefore, ?_⟩
      rw [hmounted.log, hlog, htree]
      rfl
  | false =>
      refine .bind (.read fun _ => .bind (.bindMount (fun _ => trivial) fun m₂ hbound _ =>
        .bind (.inherit fun after hafter _ => ?_)))
      refine .bind (.remountBind (fun _ => trivial) fun m₃ hremounted _ => .pure ?_)
      rw [events_accepted hlog hbound] at hafter
      refine ⟨top, node, spot, _, hopen, hnode, hpinned,
        .hideFile hdir hbefore hafter (hiddenFlags before after r.hostPath), ?_⟩
      simp [hremounted.log, hbound.log, hbound.tree, hlog, htree, KernelCall.nullBind]

end Exists

theorem overlayPath_unresolved {kind : OverlayKind} {e : Error}
    (hr : ex.rootfs.resolve m.tree target = .error e) :
    (ex.overlayPath target kind).result host m = (.error e, m) := by
  unfold overlayPath
  rw [Run.result_bind, Run.result_tree]
  dsimp only
  rw [Run.result_bind, Run.result_lift, hr]

theorem overlayPath_skipped {kind : OverlayKind} (hr : ex.rootfs.resolve m.tree target = .ok r)
    (hexists : r.exists? = false) :
    (ex.overlayPath target kind).result host m = (.ok .skipped, m) := by
  unfold overlayPath
  rw [Run.result_bind, Run.result_tree]
  dsimp only
  rw [Run.result_bind, Run.result_lift, hr]
  dsimp only
  rw [hexists]
  rfl

/-- Nothing is at a path that does not exist. -/
theorem at?_of_not_exists (hr : ex.rootfs.resolve m.tree target = .ok r)
    (hexists : r.exists? = false) {top : List Name}
    (hopen : m.tree.openDir ex.rootfs.path = .ok top) : m.tree.at? (top ++ r.names) = none := by
  obtain ⟨-, hends⟩ := Rootfs.resolveWith_ends (.of_openDir hopen) hr
  obtain ⟨i, hi⟩ : ∃ i, r.firstMissing = some i := by
    simpa [ResolvedPath.exists?, ← Option.isSome_iff_exists] using hexists
  rw [hi] at hends
  exact hends.at?_missing

theorem overlayPath_contract {kind : OverlayKind} :
    Contract (.only fun _ => True) host m (ex.overlayPath target kind) fun outcome m' =>
      ∀ r, ex.rootfs.resolve m.tree target = .ok r → r.exists? = true →
        Overlaid ex.rootfs host m r kind outcome m' := by
  unfold overlayPath
  refine .bind (.tree fun _ => .bind (.lift fun r hr _ => ?_))
  cases hexists : r.exists? with
  | false =>
      refine .pure fun r' hr' hexists' => ?_
      obtain rfl : r = r' := Except.ok.inj (hr.symm.trans hr')
      simp [hexists] at hexists'
  | true =>
      have hroot := (Rootfs.resolveWith_eq_ok hr).1
      have hlands (top : List Name) (hopen : m.tree.openDir ex.rootfs.path = .ok top) :
          m.tree.Lands top r.names := by
        obtain ⟨-, hends⟩ := Rootfs.resolveWith_ends (.of_openDir hopen) hr
        rw [Option.isNone_iff_eq_none.1 hexists] at hends
        exact hends.lands
      have hfound : ∀ outcome m', Overlaid ex.rootfs host m r kind outcome m' →
          ∀ r', ex.rootfs.resolve m.tree target = .ok r' → r'.exists? = true →
            Overlaid ex.rootfs host m r' kind outcome m' := by
        intro outcome m' hdone r' hr' _
        obtain rfl : r = r' := Except.ok.inj (hr.symm.trans hr')
        exact hdone
      cases kind with
      | readonly => exact (protectPath_contract hlands).mono fun outcome m' _ => hfound outcome m'
      | masked => exact (hidePath_contract hroot hlands).mono fun outcome m' _ => hfound outcome m'

/-- **Overlays only add restrictions.** Whatever the host answers, an overlay
leaves the files as they are. If its path cannot be resolved it fails with
that error, and if nothing is at the path it is skipped; either way the
machine stays as it was. If it succeeds on a path that exists, it made the
calls of `OverlayCalls` and no other. -/
theorem apply_overlays (ex : Executor) (host : Host) (m : Machine) {op : MountOp}
    {kind : OverlayKind} (hkind : op.overlay = some kind) :
    let out := (ex.apply op).result host m
    out.2.tree = m.tree
      ∧ (∀ e, ex.rootfs.resolve m.tree op.target = .error e → out = (.error e, m))
      ∧ (∀ r, ex.rootfs.resolve m.tree op.target = .ok r → r.exists? = false →
          out = (.ok .skipped, m)
            ∧ ∀ top, m.tree.openDir ex.rootfs.path = .ok top → m.tree.at? (top ++ r.names) = none)
      ∧ ∀ r outcome, ex.rootfs.resolve m.tree op.target = .ok r → r.exists? = true →
          out.1 = .ok outcome → Overlaid ex.rootfs host m r kind outcome out.2 := by
  intro out
  have hrun : ex.apply op = ex.overlayPath op.target kind := by rw [apply, hkind]
  have hout : out = (ex.overlayPath op.target kind).result host m := by rw [← hrun]
  have hcontract : Contract (.only fun _ => True) host m (ex.overlayPath op.target kind) _ :=
    overlayPath_contract
  refine ⟨?_, fun e hr => ?_, fun r hr hexists => ⟨?_, fun top hopen => ?_⟩,
    fun r outcome hr hexists hok => ?_⟩
  · rw [hout]
    exact hcontract.kept.files.symm
  · rw [hout, overlayPath_unresolved hr]
  · rw [hout, overlayPath_skipped hr hexists]
  · exact at?_of_not_exists hr hexists hopen
  · rw [hout] at hok ⊢
    exact hcontract.returns outcome hok r hr hexists

/-- A root with a file `f`. -/
def coveredTree : FileTree := Sample.files [([0x66], .file 0o644 [])] []

/-- A host with one mount. -/
def coveredHost : Host :=
  .granting {} (.ok [⟨Path.root, "ext4", "/", ["nosuid", "relatime"], []⟩])

/-- The operation of an overlay, carried out on that host. -/
def coveredRun (op : MountOp) : Except Error Outcome × Machine :=
  (Sample.executor.apply op).result coveredHost { tree := coveredTree }

/-- What hides `/f`. -/
def hideFile : MountOp :=
  { request := { destination := "/f", kind := .bind }, target := ⟨[slash, 0x66]⟩,
    source := .target, options := { access := .readOnly }, depth := 1, phase := .overlay,
    overlay := some .masked }

theorem apply_overlays_masked :
    (coveredRun hideFile).1 = .ok .masked ∧ (coveredRun hideFile).2.tree = coveredTree
      ∧ ∃ r, Sample.root.resolve coveredTree hideFile.target = .ok r ∧ r.exists? = true
        ∧ Overlaid Sample.root coveredHost { tree := coveredTree } r .masked .masked
            (coveredRun hideFile).2 := by
  have hok : (coveredRun hideFile).1 = .ok .masked := by decide +kernel
  have hr : Sample.root.resolve coveredTree hideFile.target
      = .ok ⟨Sample.root, [[0x66]], none⟩ := by decide +kernel
  unfold coveredRun at hok ⊢
  have hkind : hideFile.overlay = some .masked := rfl
  obtain ⟨htree, -, -, hcovered⟩ := apply_overlays Sample.executor coveredHost
    { tree := coveredTree } hkind
  exact ⟨hok, htree, _, hr, rfl, hcovered _ _ hr rfl hok⟩

/-- What protects `/f/x`. -/
def protectBelowFile : MountOp :=
  { request := { destination := "/f/x", kind := .bind }, target := ⟨[slash, 0x66, slash, 0x78]⟩,
    source := .target, options := { access := .readOnly }, depth := 2, phase := .overlay,
    overlay := some .readonly }

/-- Nothing can be below a file, and an overlay there is not skipped. -/
theorem apply_fails_below_file :
    MountPlan.build coveredTree { readonlyPaths := ["/f/x"] } = .ok ⟨[protectBelowFile]⟩
      ∧ coveredTree.at? [[0x72], [0x66], [0x78]] = none
      ∧ (coveredRun protectBelowFile).1 = .error (.ofErrno .notDirectory) := by
  refine ⟨MountPlan.build_eq_singleton rfl rfl rfl, rfl, ?_⟩
  decide +kernel

end Executor

end ContainerMounts
