/-
ContainerMounts.Proofs.Confinement.Runs — every run is confined.

`apply_safe` goes through the kinds of operations, from a destination that
is resolved, made and pinned to the calls aimed at it; `applyAll_safe`
takes the operations one after the other. `execute_confined` is the
result: of the files of a run and of its calls, wherever it stopped.
-/
import ContainerMounts.Proofs.Confinement
import ContainerMounts.Proofs.SampleHost

namespace ContainerMounts.Executor

open FileTree

variable {ex : Executor} {plan : MountPlan} {top names : List Name} {start : FileTree}
  {host : Host} {m m' : Machine} {op : MountOp}

/-! ## The root -/

theorem safe_prepareRootfs : Safe ex plan top start host m ex.prepareRootfs := by
  unfold prepareRootfs
  refine .bind (.isMountPoint fun table _ _ => ?_)
  split
  · exact .andThen (safe_bindMount aimable_root) fun _ _ _ _ => safe_setPropagation aimable_root
  · exact safe_setPropagation aimable_root

theorem safe_finishRootfs : Safe ex plan top start host m ex.finishRootfs := by
  unfold finishRootfs
  split
  · refine .bind (.inherit fun table _ _ => ?_)
    exact .andThen (safe_remountBind aimable_root) fun _ _ _ _ => .pure trivial
  · exact .pure trivial

/-! ## A destination, made and pinned -/

/-- A destination that was prepared is ready for calls. -/
theorem prepare_ready {placeholder : Placeholder} (hsite : Site ex top start)
    (hgrown : start.Grows top m.tree) (hop : op ∈ plan.ops)
    (hkind : placeholder ≠ .parentOnly) :
    Contract (ex.confinement plan top start) host m (ex.rootfs.prepare op.target placeholder)
      fun r m' => r.rootfs = ex.rootfs ∧ Ready ex plan top start m' op r.names := by
  have hopen := openDir_grows hgrown hsite.opened
  apply (Rootfs.prepare_contract (.of_openDir hopen)).mono
  intro r m' hkept hprep
  obtain ⟨hr, hroot, hplain, hthere⟩ := hprep
  rw [decide_eq_true hkind] at hr
  have hlands := hthere.lands hkind
  exact ⟨hroot, hgrown.trans hkept.files,
    ⟨hop, ⟨m.tree, r, hgrown, hkept.files, hr, rfl⟩, hplain, fun _ _ heq => hlands.not_symlink heq⟩,
    hlands⟩

/-- A destination that was pinned is addressed at its path. -/
theorem pin_ready {resolved : ResolvedPath} (hsite : Site ex top start)
    (hroot : resolved.rootfs = ex.rootfs) (h : Ready ex plan top start m op resolved.names) :
    Contract (ex.confinement plan top start) host m (ex.rootfs.pin resolved)
      fun spot m' => Ready ex plan top start m' op resolved.names
        ∧ spot.place = ex.rootfs.hostPath resolved.names := by
  have hopen := openDir_grows h.grown hsite.opened
  apply Rootfs.pin_contract.mono
  intro spot m' hkept hpin
  obtain ⟨-, -, at', hpinned⟩ := hpin
  exact ⟨h.later hkept, hsite.place_eq hroot hopen hpinned⟩

theorem safe_finishReadonly {target : Path} {options : MountOptions}
    (h : Aimable ex plan top start m target) :
    Safe ex plan top start host m (finishReadonly target options) := by
  unfold finishReadonly
  split
  · exact safe_makeReadonlyRecursive h
  · exact .pure trivial

/-! ## Binds -/

theorem safe_bindIdMapped {source : Path} {target : Spot} {recursive : Bool}
    {mapping : OwnerMapping} {set clear : MountAttrs}
    (h : Aimable ex plan top start m target.place) :
    Safe ex plan top start host m
      (Run.bindIdMapped source target recursive mapping set clear) := by
  refine (bindIdMapped_contract.promise fun m' hkept => ?_).mono fun _ _ _ _ => trivial
  apply hkept.imp (fun heq => heq ▸ .refl top _)
  intro log moment htree hcall spot hspot
  have hconfined := h m (.refl _ m)
  obtain ⟨tree, call, refusal⟩ := moment
  obtain rfl : m.tree = tree := htree
  have hcall' : KernelCall.OfMappedBind source target call := hcall
  cases hcall' with
  | moveMount real =>
      obtain rfl : target = spot := Option.some.inj hspot
      exact hconfined
  | _ => simp [KernelCall.target?] at hspot

theorem safe_attachMapped {source target : Path} {pinned : Spot} {options : MountOptions}
    {mapping : OwnerMapping} (h : Aimable ex plan top start m target)
    (hpinned : pinned.place = target) :
    Safe ex plan top start host m (attachMapped source target pinned options mapping) := by
  unfold attachMapped
  apply Contract.andThen (safe_bindIdMapped (hpinned ▸ h))
  intro _ m₁ hm₁ _
  exact .andThen (safe_finishReadonly (h.later hm₁)) fun _ _ _ _ => .pure trivial

theorem safe_attachPlain {source target : Path} {pinned : Spot} {options : MountOptions}
    (h : Aimable ex plan top start m target) (hpinned : pinned.place = target) :
    Safe ex plan top start host m (attachPlain source target pinned options) := by
  unfold attachPlain
  apply Contract.andThen (safe_bindMount (hpinned ▸ h))
  intro _ m₁ hm₁ _
  have hfinish : ∀ m₂, (ex.confinement plan top start).Kept m₁ m₂ →
      Safe ex plan top start host m₂ (do
        finishReadonly target options
        return Outcome.mounted) := fun m₂ hm₂ =>
    .andThen (safe_finishReadonly ((h.later hm₁).later hm₂)) fun _ _ _ _ => .pure trivial
  split
  · refine .bind (.inheritRelaxed fun table _ _ => ?_)
    exact .andThen (safe_remountBind (h.later hm₁)) fun _ m₂ hm₂ _ => hfinish m₂ hm₂
  · exact hfinish m₁ (.refl _ m₁)

theorem placeholder_ne_parentOnly (kind : FileKind) : kind.placeholder ≠ .parentOnly := by
  cases kind <;> simp [FileKind.placeholder]

theorem safe_bindSource {source : Path} {kind : FileKind} (hsite : Site ex top start)
    (hgrown : start.Grows top m.tree) (hop : op ∈ plan.ops) :
    Safe ex plan top start host m (ex.bindSource op source kind) := by
  unfold bindSource
  apply Contract.andThen (prepare_ready hsite hgrown hop (placeholder_ne_parentOnly kind))
  intro r m₁ _ hr
  obtain ⟨hroot, hready⟩ := hr
  apply Contract.andThen (pin_ready hsite hroot hready)
  intro pinned m₂ _ hpin
  obtain ⟨hready₂, hplace⟩ := hpin
  rw [hostPath_eq hroot]
  split
  · exact safe_attachMapped hready₂.aimable hplace
  · exact safe_attachPlain hready₂.aimable hplace

/-! ## Filesystems -/

theorem safe_mountPlain {name : String} {resolved : ResolvedPath} (hsite : Site ex top start)
    (hroot : resolved.rootfs = ex.rootfs) (h : Ready ex plan top start m op resolved.names) :
    Safe ex plan top start host m (ex.mountPlain op name resolved) := by
  unfold mountPlain
  apply Contract.andThen (pin_ready hsite hroot h)
  intro pinned m₁ _ hpin
  obtain ⟨hready, hplace⟩ := hpin
  exact .andThen (safe_mountFilesystem (hplace ▸ hready.aimable)) fun _ _ _ _ => .pure trivial

theorem safe_mountKind {name : String} {resolved : ResolvedPath} (hsite : Site ex top start)
    (hroot : resolved.rootfs = ex.rootfs) (h : Ready ex plan top start m op resolved.names) :
    Safe ex plan top start host m (ex.mountKind op name resolved) := by
  have htarget := hostPath_eq hroot
  unfold mountKind
  cases hkind : op.request.kind with
  | proc =>
      rw [htarget]
      exact .andThen (safe_mountFilesystem h.aimable) fun _ _ _ _ => .pure trivial
  | sysfs =>
      dsimp only
      rw [htarget]
      apply Contract.andThen (safe_mountSysfs h hkind)
      intro hosts m₁ _ _
      split
      · exact .pure trivial
      · exact .pure trivial
  | cgroup =>
      dsimp only
      rw [htarget]
      exact .andThen (safe_mountCgroup hsite h hkind) fun _ _ _ _ => .pure trivial
  | _ => exact safe_mountPlain hsite hroot h

theorem safe_mountVirtual {name : String} (hsite : Site ex top start)
    (hgrown : start.Grows top m.tree) (hop : op ∈ plan.ops) :
    Safe ex plan top start host m (ex.mountVirtual op name) := by
  unfold mountVirtual
  apply Contract.andThen (prepare_ready hsite hgrown hop (by simp))
  intro r m₁ _ hr
  obtain ⟨hroot, hready⟩ := hr
  apply Contract.andThen (safe_mountKind hsite hroot hready)
  intro outcome m₂ hm₂ _
  rw [hostPath_eq hroot]
  exact .andThen (safe_finishReadonly (hready.later hm₂).aimable) fun _ _ _ _ => .pure trivial

/-! ## Symlinks -/

/-- A link at the root itself cannot be made, since the root is there. -/
theorem makeLink_root {tree tree' : FileTree} {text : Path} (hfit : ∀ n ∈ top, FitName n)
    (hdir : tree.IsDirAt top) : tree.makeLink text (Path.ofNames top) ≠ .ok tree' := by
  intro hmake
  have hroot : tree.openDir Path.root = .ok [] := openDir_root (isDirAt_root hdir)
  rcases List.eq_nil_or_concat top with rfl | ⟨init, last, rfl⟩
  · have hmoves : (Path.ofNames []).moves.getLast? = some .stay := by decide
    have hacc : accept (Path.ofNames []) = .ok () := by decide
    have hloc : tree.locate true (Path.ofNames []) = .ok [] := (openDir_eq_ok.1 hroot).2.1
    have hmade := make_of_makeLink hmake
    simp [make, hacc, hmoves, hloc, bind, Except.bind] at hmade
  · rw [List.concat_eq_append] at hfit hdir hmake
    have hpass : tree.Passable [] init :=
      ⟨IsDirAt.above hdir, fun n hn => hfit n (by simp [hn])⟩
    have hlast : PlainName last := (hfit last (by simp)).toPlainName
    rw [Path.ofNames, Path.joinNames_concat] at hmake
    obtain ⟨mode, entries, hat⟩ := hdir
    have hmade := makeLink_behind_ok (.of_openDir hroot) hpass.lands hlast hmake
    have hfree := hmade.free
    rw [List.nil_append, hat] at hfree
    simp at hfree

theorem makeLink_grows {tree tree' : FileTree} {text : Path} (hsite : Site ex top start)
    (hopen : tree.openDir ex.rootfs.path = .ok top) (hplain : ∀ n ∈ names, PlainName n)
    (hpass : tree.Passable top names.dropLast)
    (hmake : tree.makeLink text (ex.rootfs.hostPath names) = .ok tree') :
    tree.Grows top tree' := by
  rcases List.eq_nil_or_concat names with rfl | ⟨init, last, rfl⟩
  · rw [Rootfs.hostPath, Path.joinNames_nil, hsite.path] at hmake
    exact absurd hmake (makeLink_root hsite.fit (openDir_eq_ok.1 hopen).2.2)
  · rw [List.concat_eq_append] at hplain hpass hmake
    rw [List.dropLast_concat] at hpass
    rw [Rootfs.hostPath, Path.joinNames_concat] at hmake
    have hmade := makeLink_behind_ok (.of_openDir hopen) hpass.lands (hplain last (by simp)) hmake
    exact hmade.grows (fun _ => rfl) hplain

theorem safe_materializeSymlink {target text : Path} (hsite : Site ex top start)
    (hgrown : start.Grows top m.tree) :
    Safe ex plan top start host m (ex.materializeSymlink target text) := by
  have hopen := openDir_grows hgrown hsite.opened
  unfold materializeSymlink
  apply Contract.andThen (Rootfs.prepare_contract (.of_openDir hopen))
  intro r m₁ hm₁ hprep
  obtain ⟨-, hroot, hplain, hpass⟩ := hprep
  have hopen₁ := openDir_grows hm₁.files hopen
  refine .bind (.change? (fun tree m₂ hedit htree _ => ?_) fun fault hedit _ => ?_)
  · rw [hostPath_eq hroot] at hedit
    exact ⟨makeLink_grows hsite hopen₁ hplain hpass hedit, fun _ => .pure trivial⟩
  · refine .bind (.tree fun _ => ?_)
    split
    · exact .pure trivial
    · exact .throw

/-! ## Overlays and propagation -/

theorem safe_protectPath {resolved : ResolvedPath} (hsite : Site ex top start)
    (hroot : resolved.rootfs = ex.rootfs) (h : Ready ex plan top start m op resolved.names) :
    Safe ex plan top start host m (ex.protectPath resolved) := by
  unfold protectPath
  rw [hostPath_eq hroot]
  apply Contract.andThen (pin_ready hsite hroot h)
  intro pinned m₁ _ hpin
  obtain ⟨hready, hplace⟩ := hpin
  apply Contract.andThen (safe_bindMount (hplace ▸ hready.aimable))
  intro _ m₂ hm₂ _
  refine .bind (.inherit fun table _ _ => ?_)
  exact .andThen (safe_remountBind (hready.later hm₂).aimable) fun _ _ _ _ => .pure trivial

theorem safe_hidePath {resolved : ResolvedPath} (hsite : Site ex top start)
    (hroot : resolved.rootfs = ex.rootfs) (h : Ready ex plan top start m op resolved.names) :
    Safe ex plan top start host m (ex.hidePath resolved) := by
  unfold hidePath
  rw [hostPath_eq hroot]
  apply Contract.andThen (pin_ready hsite hroot h)
  intro pinned m₁ _ hpin
  obtain ⟨hready, hplace⟩ := hpin
  refine .bind (.inherit fun table _ _ => .bind (.ask fun node _ _ => ?_))
  split
  · exact .andThen (safe_mountFilesystem (hplace ▸ hready.aimable)) fun _ _ _ _ => .pure trivial
  · refine .bind (.read fun _ => ?_)
    apply Contract.andThen (safe_bindMount (hplace ▸ hready.aimable))
    intro _ m₂ hm₂ _
    refine .bind (.inherit fun table _ _ => ?_)
    exact .andThen (safe_remountBind (hready.later hm₂).aimable) fun _ _ _ _ => .pure trivial

/-- A destination that was resolved just now has no symlink in it. -/
theorem aim_of_resolve {r : ResolvedPath} (hsite : Site ex top start)
    (hgrown : start.Grows top m.tree) (hop : op ∈ plan.ops)
    (hr : ex.rootfs.resolve m.tree op.target = .ok r) :
    r.rootfs = ex.rootfs ∧ Aim ex plan top start m.tree op r.names
      ∧ Rootfs.Ends m.tree top true (r.names, r.firstMissing) := by
  have hopened := openDir_grows hgrown hsite.opened
  obtain ⟨hroot, hends⟩ := Rootfs.resolveWith_ends (.of_openDir hopened) hr
  exact ⟨hroot, ⟨hop, ⟨m.tree, r, hgrown, .refl top _, hr, rfl⟩, hends.plain,
    fun _ _ heq => hends.not_symlink heq⟩, hends⟩

theorem safe_overlayPath {kind : OverlayKind} (hsite : Site ex top start)
    (hgrown : start.Grows top m.tree) (hop : op ∈ plan.ops) :
    Safe ex plan top start host m (ex.overlayPath op.target kind) := by
  unfold overlayPath
  refine .bind (.tree fun _ => .bind (.lift fun r hr _ => ?_))
  obtain ⟨hroot, haim, hends⟩ := aim_of_resolve hsite hgrown hop hr
  split
  · exact .pure trivial
  · rename_i hexists
    have hnone : r.firstMissing = none := by simpa [ResolvedPath.exists?] using hexists
    rw [hnone] at hends
    have hready : Ready ex plan top start m op r.names := ⟨hgrown, haim, hends.lands⟩
    cases kind with
    | readonly => exact safe_protectPath hsite hroot hready
    | masked => exact safe_hidePath hsite hroot hready

/-- The destination is resolved anew, so the call finds no symlink in it
either. -/
theorem safe_propagate {options : MountOptions} (hsite : Site ex top start)
    (hgrown : start.Grows top m.tree) (hop : op ∈ plan.ops) :
    Safe ex plan top start host m (ex.propagate op.target options) := by
  unfold propagate
  split
  · exact .pure trivial
  · refine .bind (.tree fun _ => .bind (.lift fun r hr _ => ?_))
    obtain ⟨hroot, haim, -⟩ := aim_of_resolve hsite hgrown hop hr
    refine .setPropagation (fun refusal spot hspot => ?_) fun _ _ => trivial
    obtain rfl : Spot.at r.hostPath = spot := Option.some.inj hspot
    have hconfined : Confined ex plan top start m.tree (ex.rootfs.hostPath (r.names ++ [])) :=
      .below haim .destination
    rw [List.append_nil] at hconfined
    rw [Spot.place, hostPath_eq hroot]
    exact hconfined

/-! ## Operations and runs -/

theorem apply_safe (hsite : Site ex top start) (hgrown : start.Grows top m.tree)
    (hop : op ∈ plan.ops) : Safe ex plan top start host m (ex.apply op) := by
  unfold apply
  split
  · exact safe_overlayPath hsite hgrown hop
  · unfold applyMount
    split
    · exact safe_materializeSymlink hsite hgrown
    · apply Contract.andThen (safe_bindSource hsite hgrown hop)
      intro outcome m₁ hm₁ _
      exact .andThen (safe_propagate hsite (hgrown.trans hm₁.files) hop)
        fun _ _ _ _ => .pure trivial
    · apply Contract.andThen (safe_mountVirtual hsite hgrown hop)
      intro outcome m₁ hm₁ _
      exact .andThen (safe_propagate hsite (hgrown.trans hm₁.files) hop)
        fun _ _ _ _ => .pure trivial
    · exact .throw

theorem applyAll_safe {ops : List MountOp} (hsite : Site ex top start)
    (hgrown : start.Grows top m.tree) (hops : ∀ op ∈ ops, op ∈ plan.ops) :
    Safe ex plan top start host m (ex.applyAll ops) := by
  induction ops generalizing m with
  | nil => exact .pure trivial
  | cons op rest ih =>
      apply Contract.andThen (apply_safe hsite hgrown (hops op (by simp)))
      intro outcome m₁ hm₁ _
      refine .andThen (ih (hgrown.trans hm₁.files) fun op hop => hops op (by simp [hop]))
        fun entries m₂ _ _ => .pure trivial

theorem execute_safe (hsite : Site ex top start) (hgrown : start.Grows top m.tree) :
    Safe ex plan top start host m (ex.execute plan) := by
  unfold execute
  apply Contract.andThen safe_prepareRootfs
  intro _ m₁ hm₁ _
  apply Contract.andThen (applyAll_safe hsite (hgrown.trans hm₁.files) fun op hop => hop)
  intro entries m₂ _ _
  exact .andThen safe_finishRootfs fun last m₃ _ _ => .pure trivial

/-! ## The result -/

theorem Confined.components {now : FileTree} {p : Path} (hsite : Site ex top start)
    (h : Confined ex plan top start now p) :
    ∃ rest : List Name, (∀ n ∈ rest, PlainName n) ∧
      p.components = ex.rootfs.path.components ++ rest.map .normal := by
  have habs : ex.rootfs.path.isAbsolute = true := by
    rw [hsite.path]
    exact Path.isAbsolute_ofNames fun n hn => (hsite.fit n hn).toPlainName
  cases h with
  | root => exact ⟨[], by simp, by simp⟩
  | @below op names rest aim reach =>
      have hplain : ∀ n ∈ names ++ rest, PlainName n :=
        List.forall_mem_append.2 ⟨aim.plain, reach.plain⟩
      exact ⟨names ++ rest, hplain, Path.components_joinNames habs hplain⟩

/-- **Every run is confined.** Let the root be the real path of an existing
directory. Then, for any plan, any host and wherever the run stopped, the
files after it are those before it and new ones strictly below the root,
and every call that puts or changes a mount is aimed at the root or at a
path that continues it with plain names. Those names come from resolving
the destination of an operation in files of the run, but for a few fixed
ones at the end, and no symlink was among them when the call was made. -/
theorem execute_confined (ex : Executor) (plan : MountPlan) (host : Host) (m : Machine)
    (hroot : m.tree.IsRealDir ex.rootfs.path) (hnamed : m.tree.WellNamed) :
    ∃ top, ex.rootfs.path = Path.ofNames top
      ∧ m.tree.Grows top ((ex.execute plan).result host m).2.tree
      ∧ ∃ new, ((ex.execute plan).result host m).2.log = m.log ++ new
        ∧ ∀ moment ∈ new, ∀ spot, moment.event.call.target? = some spot →
          Confined ex plan top m.tree moment.tree spot.place
            ∧ ∃ rest : List Name, (∀ n ∈ rest, PlainName n)
              ∧ spot.place.components = ex.rootfs.path.components ++ rest.map .normal := by
  obtain ⟨top, hpath, hfit, hopen⟩ := openDir_of_isRealDir hroot
  have hsite : Site ex top m.tree := ⟨hpath, hfit, hopen, hnamed⟩
  have hsafe : Safe ex plan top m.tree host m (ex.execute plan) :=
    execute_safe hsite (.refl top m.tree)
  have hkept := hsafe.kept
  obtain ⟨new, hlog, hcalls, -⟩ := hkept.calls
  refine ⟨top, hpath, hkept.files, new, hlog, fun moment hmoment spot hspot => ?_⟩
  obtain ⟨before, after, heq⟩ := List.append_of_mem hmoment
  have hconfined := hcalls.at heq spot hspot
  exact ⟨hconfined, hconfined.components hsite⟩

/-- A plan for a tmpfs on `/l`. -/
def tmpfsPlan : MountPlan :=
  ⟨[{ request := { destination := "/l", kind := .tmpfs }, target := ⟨[slash, 0x6C]⟩,
      source := .virtual "tmpfs", options := {}, depth := 1, phase := .mount }]⟩

/-- The link leads to a directory that is made below the root. -/
theorem execute_confined_linkedRoot :
    let ex := Sample.executor
    let host := Sample.host
    let tree := Sample.linked ⟨[slash, 0x64]⟩
    let m : Machine := { tree }
    tree.IsRealDir ex.rootfs.path ∧ tree.WellNamed
      ∧ ∃ top, ex.rootfs.path = Path.ofNames top
        ∧ tree.Grows top ((ex.execute tmpfsPlan).result host m).2.tree
        ∧ ∃ new, ((ex.execute tmpfsPlan).result host m).2.log = m.log ++ new
          ∧ ∀ moment ∈ new, ∀ spot, moment.event.call.target? = some spot →
            Confined ex tmpfsPlan top tree moment.tree spot.place
              ∧ ∃ rest : List Name, (∀ n ∈ rest, PlainName n)
                ∧ spot.place.components = ex.rootfs.path.components ++ rest.map .normal := by
  intro ex host tree m
  have hreal : tree.IsRealDir ex.rootfs.path := Sample.isRealDir_root _ _
  have hnamed : tree.WellNamed := Sample.wellNamed_linked _
  exact ⟨hreal, hnamed, execute_confined ex tmpfsPlan host m hreal hnamed⟩

end ContainerMounts.Executor
