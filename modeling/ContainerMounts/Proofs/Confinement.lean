/-
ContainerMounts.Proofs.Confinement — a run stays below the container's
root.

A run is aimed at its root and at the destinations of its plan, and a
destination is known only by resolving it in files that anyone may have
filled with symlinks. `Confined` says where a call may be aimed: at the
root, or at the names that a destination was resolved to and a few fixed
ones below them, with no symlink among the resolved names at the time of
the call.

The invariant of a run is that its files are those it started with, grown
below the root; then what was resolved earlier still leads to the same
place. Every step keeps it, and what a step calls is confined, whichever
calls the host refuses: `apply_safe` for one operation,
`execute_confined` for a whole run.
-/
import ContainerMounts.Executor
import ContainerMounts.Proofs.CallContracts
import ContainerMounts.Proofs.Preparation

namespace ContainerMounts

open FileTree

/-- Where the call puts or changes a mount, if it is told where. -/
def KernelCall.target? : KernelCall → Option Spot
  | .mount _ target _ _ _ => some target
  | .moveMount _ target => some target
  | .setAttrAt path _ _ => some (.at path)
  | .openTree .. | .setAttrOf .. | .write .. | .unshare _ => none

/-- The names `fs/cgroup`, where a sysfs has the control groups. -/
def cgroupBelowSysfs : List Name := [[0x66, 0x73], [0x63, 0x67, 0x72, 0x6F, 0x75, 0x70]]

namespace Executor

/-! ## Where calls may be aimed -/

/-- Where below its destination an operation of the kind makes calls. -/
inductive Reach (kind : MountKind) : List Name → Prop where
  | destination : Reach kind []
  /-- The control groups of a sysfs. -/
  | cgroup (h : kind = .sysfs) : Reach kind cgroupBelowSysfs
  /-- A controller in a directory of control groups. -/
  | controller (h : kind = .cgroup) {name : Name} (hname : PlainName name) : Reach kind [name]

/-- The destination of the operation was resolved to these names in files
between those at the start and those of now, and no symlink is among the
names now. -/
structure Aim (ex : Executor) (plan : MountPlan) (top : List Name) (start now : FileTree)
    (op : MountOp) (names : List Name) : Prop where
  planned : op ∈ plan.ops
  resolved : ∃ tree r, start.Grows top tree ∧ tree.Grows top now
    ∧ ex.rootfs.resolve tree op.target = .ok r ∧ r.names = names
  plain : ∀ n ∈ names, PlainName n
  clear : ∀ init rest, names = init ++ rest → ¬ now.IsSymlinkAt (top ++ init)

/-- A path that a call may be aimed at. -/
inductive Confined (ex : Executor) (plan : MountPlan) (top : List Name) (start now : FileTree) :
    Path → Prop where
  | root : Confined ex plan top start now ex.rootfs.path
  | below {op : MountOp} {names rest : List Name} (aim : Aim ex plan top start now op names)
      (reach : Reach op.request.kind rest) :
      Confined ex plan top start now (ex.rootfs.hostPath (names ++ rest))

/-- What a run keeps to: files grow below the root, and calls are confined. -/
def confinement (ex : Executor) (plan : MountPlan) (top : List Name) (start : FileTree) : Promise :=
  .growing top fun _ moment => ∀ spot, moment.event.call.target? = some spot →
    Confined ex plan top start moment.tree spot.place

theorem Reach.plain {kind : MountKind} {rest : List Name} (h : Reach kind rest) :
    ∀ n ∈ rest, PlainName n := by
  cases h with
  | destination => simp
  | cgroup h => decide
  | controller h hname => simpa using hname

theorem Aim.grows {ex : Executor} {plan : MountPlan} {top : List Name} {start now after : FileTree}
    {op : MountOp} {names : List Name} (h : Aim ex plan top start now op names)
    (hlands : now.Lands top names) (hgrows : now.Grows top after) :
    Aim ex plan top start after op names := by
  obtain ⟨tree, r, hstart, hnow, hr, hnames⟩ := h.resolved
  exact ⟨h.planned, ⟨tree, r, hstart, hnow.trans hgrows, hr, hnames⟩, h.plain,
    fun init rest heq => (hlands.grows hgrows).not_symlink heq⟩

section Run

variable {α : Type} {ex : Executor} {plan : MountPlan} {top : List Name} {start : FileTree}
  {host : Host} {m m' : Machine}

/-- The action keeps a run confined, however it ends. -/
abbrev Safe (ex : Executor) (plan : MountPlan) (top : List Name) (start : FileTree) (host : Host)
    (m : Machine) (act : Run α) : Prop :=
  Contract (ex.confinement plan top start) host m act fun _ _ => True

/-- From now on, calls may be aimed at the path. -/
def Aimable (ex : Executor) (plan : MountPlan) (top : List Name) (start : FileTree) (m : Machine)
    (p : Path) : Prop :=
  ∀ m', (ex.confinement plan top start).Kept m m' → Confined ex plan top start m'.tree p

theorem Aimable.later {p : Path} (h : Aimable ex plan top start m p)
    (hkept : (ex.confinement plan top start).Kept m m') : Aimable ex plan top start m' p :=
  fun m₂ h₂ => h m₂ (hkept.trans h₂)

theorem aimable_root : Aimable ex plan top start m ex.rootfs.path := fun _ _ => .root

theorem Aimable.call {spot : Spot} {call : KernelCall}
    (h : Aimable ex plan top start m spot.place) (htarget : call.target? = some spot)
    (refusal : Option Errno) :
    (ex.confinement plan top start).call m.log ⟨m.tree, ⟨call, refusal⟩⟩ := by
  intro spot' hspot'
  obtain rfl : spot = spot' := Option.some.inj (htarget.symm.trans hspot')
  exact h m (.refl _ m)

theorem Aimable.callAt {p : Path} {call : KernelCall} (h : Aimable ex plan top start m p)
    (htarget : call.target? = some (.at p)) (refusal : Option Errno) :
    (ex.confinement plan top start).call m.log ⟨m.tree, ⟨call, refusal⟩⟩ := by
  have hplace : Aimable ex plan top start m (Spot.at p).place := h
  exact hplace.call htarget refusal

/-! ## Operations on one target -/

theorem safe_mountFilesystem? {source target : Spot} {fsType data : String} {flags : MountFlags}
    (h : Aimable ex plan top start m target.place) :
    Safe ex plan top start host m (Run.mountFilesystem? source target fsType flags data) :=
  .mountFilesystem? (h.call rfl) fun _ _ _ => trivial

theorem safe_mountFilesystem {source target : Spot} {fsType data : String} {flags : MountFlags}
    (h : Aimable ex plan top start m target.place) :
    Safe ex plan top start host m (Run.mountFilesystem source target fsType flags data) :=
  .mountFilesystem (h.call rfl) fun _ _ => trivial

theorem safe_bindMount {source target : Spot} {recursive : Bool}
    (h : Aimable ex plan top start m target.place) :
    Safe ex plan top start host m (Run.bindMount source target recursive) :=
  .bindMount (h.call rfl) fun _ _ => trivial

theorem safe_remountBind {target : Path} {flags : MountFlags}
    (h : Aimable ex plan top start m target) :
    Safe ex plan top start host m (Run.remountBind target flags) :=
  .remountBind (h.callAt rfl) fun _ _ => trivial

theorem safe_remount {target : Path} {flags : MountFlags} {data : String}
    (h : Aimable ex plan top start m target) :
    Safe ex plan top start host m (Run.remount target flags data) :=
  .remount (h.callAt rfl) fun _ _ => trivial

theorem safe_setPropagation {target : Path} {propagation : Propagation}
    (h : Aimable ex plan top start m target) :
    Safe ex plan top start host m (Run.setPropagation target propagation) :=
  .setPropagation (h.callAt rfl) fun _ _ => trivial

theorem safe_makeReadonlyRecursive {target : Path} {flags : MountFlags}
    (h : Aimable ex plan top start m target) :
    Safe ex plan top start host m (Run.makeReadonlyRecursive target flags) := by
  have htarget : (Contract.readonlyCall target).target? = some (.at target) := rfl
  have hattr := h.callAt htarget
  refine .makeReadonlyRecursive hattr (fun m₁ refusal htree hlog => ?_) (fun _ _ => trivial)
    fun _ _ _ _ _ => trivial
  have hkept : (ex.confinement plan top start).Kept m m₁ := .of_call htree hlog (hattr _)
  exact (h.later hkept).callAt rfl refusal

/-! ## A destination that was made -/

/-- The root is the real path of a directory in the files of the start, and
those are files that a directory can hold. -/
structure Site (ex : Executor) (top : List Name) (start : FileTree) : Prop where
  path : ex.rootfs.path = Path.ofNames top
  fit : ∀ n ∈ top, FitName n
  opened : start.openDir ex.rootfs.path = .ok top
  named : start.WellNamed

/-- The files are those of the start, grown below the root, and the
destination of the operation is there under the names. -/
structure Ready (ex : Executor) (plan : MountPlan) (top : List Name) (start : FileTree)
    (m : Machine) (op : MountOp) (names : List Name) : Prop where
  grown : start.Grows top m.tree
  aim : Aim ex plan top start m.tree op names
  lands : m.tree.Lands top names

variable {op : MountOp} {names : List Name}

theorem Ready.later (h : Ready ex plan top start m op names)
    (hkept : (ex.confinement plan top start).Kept m m') : Ready ex plan top start m' op names :=
  ⟨h.grown.trans hkept.files, h.aim.grows h.lands hkept.files, h.lands.grows hkept.files⟩

theorem Ready.aimable_below {rest : List Name} (h : Ready ex plan top start m op names)
    (hreach : Reach op.request.kind rest) :
    Aimable ex plan top start m (ex.rootfs.hostPath (names ++ rest)) :=
  fun _ hkept => .below (h.later hkept).aim hreach

theorem Ready.aimable (h : Ready ex plan top start m op names) :
    Aimable ex plan top start m (ex.rootfs.hostPath names) := by
  have hbelow := h.aimable_below .destination
  rwa [List.append_nil] at hbelow

theorem hostPath_eq {resolved : ResolvedPath} (hroot : resolved.rootfs = ex.rootfs) :
    resolved.hostPath = ex.rootfs.hostPath resolved.names := by
  rw [ResolvedPath.hostPath, hroot]

/-- A pinned target is at the path of its names. -/
theorem Site.place_eq {spot : Spot} {resolved : ResolvedPath} {at' : List Name}
    (hsite : Site ex top start) (hroot : resolved.rootfs = ex.rootfs)
    (hopen : m.tree.openDir ex.rootfs.path = .ok top)
    (hpinned : m.tree.openDir ex.rootfs.path = .ok at' ∧ Rootfs.Pinned at' resolved spot) :
    spot.place = ex.rootfs.hostPath resolved.names := by
  obtain ⟨hat, hspot⟩ := hpinned
  obtain rfl : top = at' := by simpa [hopen] using hat
  rcases hspot with rfl | rfl
  · rw [Spot.place, Path.ofNames_append, Rootfs.hostPath, hsite.path]
  · exact hostPath_eq hroot

/-! ## proc, sysfs and the control groups -/

theorem safe_tryFreshSysfs {namespaces : Namespaces} {target : Path} {flags : MountFlags}
    {data : String} (h : Aimable ex plan top start m target) :
    Safe ex plan top start host m (Run.tryFreshSysfs namespaces target flags data) := by
  unfold Run.tryFreshSysfs
  split
  · apply Contract.andThen (safe_mountFilesystem? h)
    intro e m₁ _ _
    cases e with
    | none => exact .pure trivial
    | some e =>
        dsimp only
        split
        · exact .pure trivial
        · exact .throw
  · exact .pure trivial

theorem safe_bindHostSysfs {flags : MountFlags} (h : Ready ex plan top start m op names)
    (hkind : op.request.kind = .sysfs) :
    Safe ex plan top start host m (Run.bindHostSysfs (ex.rootfs.hostPath names) flags) := by
  have hcgroup : (ex.rootfs.hostPath names).join (Path.ofString "fs/cgroup")
      = ex.rootfs.hostPath (names ++ cgroupBelowSysfs) := by
    have hfs : PlainName [0x66, 0x73] := by decide
    have hgroup : PlainName [0x63, 0x67, 0x72, 0x6F, 0x75, 0x70] := by decide
    rw [Rootfs.hostPath, Rootfs.hostPath, Path.joinNames_append]
    exact Path.join_pair _ hfs hgroup
  unfold Run.bindHostSysfs
  rw [hcgroup]
  refine .bind (.read fun _ => .andThen (safe_bindMount h.aimable) fun _ m₁ hm₁ _ => ?_)
  refine .bind (.inherit fun table _ _ => ?_)
  apply Contract.andThen (safe_remountBind (h.later hm₁).aimable)
  intro _ m₂ hm₂ _
  have h₂ := (h.later hm₁).later hm₂
  split
  · exact safe_makeReadonlyRecursive h₂.aimable
  · refine .bind (.isMountPoint fun table _ _ => ?_)
    split
    · exact safe_makeReadonlyRecursive (h₂.aimable_below (.cgroup hkind))
    · exact .pure trivial

theorem safe_mountSysfs {namespaces : Namespaces} {flags : MountFlags} {data : String}
    (h : Ready ex plan top start m op names) (hkind : op.request.kind = .sysfs) :
    Safe ex plan top start host m
      (Run.mountSysfs namespaces (ex.rootfs.hostPath names) flags data) := by
  unfold Run.mountSysfs
  apply Contract.andThen (safe_tryFreshSysfs h.aimable)
  intro fresh m₁ hm₁ _
  split
  · exact .pure trivial
  · exact .andThen (safe_bindHostSysfs (h.later hm₁) hkind) fun _ _ _ _ => .pure trivial

theorem safe_bindHostCgroup {target : Path} {flags : MountFlags}
    (h : Aimable ex plan top start m target) :
    Safe ex plan top start host m (Run.bindHostCgroup target flags) := by
  unfold Run.bindHostCgroup
  refine .bind (.read fun _ => .andThen (safe_bindMount h) fun _ m₁ hm₁ _ => ?_)
  refine .bind (.inherit fun table _ _ => ?_)
  apply Contract.andThen (safe_remountBind (h.later hm₁))
  intro _ m₂ hm₂ _
  exact safe_makeReadonlyRecursive ((h.later hm₁).later hm₂)

theorem safe_tryFreshCgroup {target : Path} {flags : MountFlags} {data : String}
    (h : Aimable ex plan top start m target) :
    Safe ex plan top start host m (Run.tryFreshCgroup target flags data) := by
  unfold Run.tryFreshCgroup
  apply Contract.andThen (safe_mountFilesystem? h)
  intro e m₁ hm₁ _
  cases e with
  | none =>
      refine .bind (.inherit fun table _ _ => ?_)
      exact .andThen (safe_remountBind (h.later hm₁)) fun _ _ _ _ => .pure trivial
  | some e =>
      dsimp only
      split
      · exact .pure trivial
      · exact .throw

/-- A directory for a controller grows the files below the root, and the
controller is bound there. -/
theorem safe_bindController {source : Path} {flags : MountFlags} {name : Name}
    (hsite : Site ex top start) (h : Ready ex plan top start m op names)
    (hkind : op.request.kind = .cgroup) (hname : PlainName name) :
    Safe ex plan top start host m
      (Run.bindController source ((ex.rootfs.hostPath names).join ⟨name⟩) flags) := by
  have hopen := openDir_grows h.grown hsite.opened
  refine .bindController (fun tree hedit => ?_) fun m₁ hm₁ _ => ?_
  · obtain ⟨hfit, hmade⟩ := makeDir_behind_ok (.of_openDir hopen) h.lands hname hedit
    have hplain : ∀ n ∈ names ++ [name], PlainName n :=
      List.forall_mem_append.2 ⟨h.aim.plain, List.forall_mem_singleton.2 hname⟩
    exact hmade.grows (fun _ => rfl) hplain
  · have haim := (h.later hm₁).aimable_below (.controller hkind hname)
    rw [Rootfs.hostPath, Path.joinNames_concat] at haim
    apply Contract.andThen (safe_bindMount haim)
    intro _ m₂ hm₂ _
    exact .bind (.inherit fun table _ _ => safe_remountBind (haim.later hm₂))

theorem safe_addController {root : Path} {flags : MountFlags} {name : Name} {node : Node}
    (hsite : Site ex top start) (h : Ready ex plan top start m op names)
    (hkind : op.request.kind = .cgroup) (hname : PlainName name) :
    Safe ex plan top start host m
      (Run.addController root (ex.rootfs.hostPath names) flags name node) := by
  cases node with
  | symlink text =>
      have hopen := openDir_grows h.grown hsite.opened
      refine .bind (.change? (fun tree m₁ hedit htree _ => ?_) fun fault hedit _ => .throw)
      have hmade := makeLink_behind_ok (.of_openDir hopen) h.lands hname hedit
      have hplain : ∀ n ∈ names ++ [name], PlainName n :=
        List.forall_mem_append.2 ⟨h.aim.plain, List.forall_mem_singleton.2 hname⟩
      exact ⟨hmade.grows (fun _ => rfl) hplain, fun _ => .pure trivial⟩
  | dir mode entries => exact safe_bindController hsite h hkind hname
  | _ => exact .pure trivial

theorem safe_mountSynthetic {flags : MountFlags} (hsite : Site ex top start)
    (h : Ready ex plan top start m op names) (hkind : op.request.kind = .cgroup) :
    Safe ex plan top start host m (Run.mountSynthetic (ex.rootfs.hostPath names) flags) := by
  unfold Run.mountSynthetic
  apply Contract.andThen (safe_mountFilesystem h.aimable)
  intro _ m₁ hm₁ _
  refine .bind (.read fun _ => .bind (.ask fun entries hlist _ => ?_))
  have h₁ := h.later hm₁
  have hnamed : m₁.tree.WellNamed :=
    h₁.grown.wellNamed hsite.named (openDir_eq_ok.1 hsite.opened).2.2
  have hnames := list_plain hnamed hlist
  refine .andThen (.addControllers fun e he m₂ hm₂ =>
    safe_addController hsite (h₁.later hm₂) hkind (hnames e he)) fun _ m₂ hm₂ _ => ?_
  exact safe_remount (h₁.later hm₂).aimable

theorem safe_mountCgroup {namespaces : Namespaces} {flags : MountFlags} {data : String}
    (hsite : Site ex top start) (h : Ready ex plan top start m op names)
    (hkind : op.request.kind = .cgroup) :
    Safe ex plan top start host m
      (Run.mountCgroup namespaces (ex.rootfs.hostPath names) flags data) := by
  unfold Run.mountCgroup
  refine .bind (.table fun table _ _ => .bind (.read fun _ => ?_))
  dsimp only
  split
  · apply Contract.andThen (safe_tryFreshCgroup h.aimable)
    intro fresh m₁ hm₁ _
    split
    · exact .pure trivial
    · exact .andThen (safe_bindHostCgroup (h.later hm₁).aimable) fun _ _ _ _ => .pure trivial
  · exact .andThen (safe_bindHostCgroup h.aimable) fun _ _ _ _ => .pure trivial
  · exact .andThen (safe_mountSynthetic hsite h hkind) fun _ _ _ _ => .pure trivial

end Run

end Executor

end ContainerMounts
