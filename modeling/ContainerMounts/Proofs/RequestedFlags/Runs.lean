/-
ContainerMounts.Proofs.RequestedFlags.Runs — every way to serve a request
grants it.

A declared mount is served in one of many ways, each a few calls long, and
a later call may replace what an earlier one set. `Bears` says that the
calls so far leave flags on the target that grant the options, whatever
flags the sources have. It is established by the last call that replaces
the flags, and kept by those behind it: a call that makes a mount
read-only, a change of propagation, a call that is aimed elsewhere.
`apply_grants` is the statement for an operation of a plan, in terms of
the options as they were declared.
-/
import ContainerMounts.Executor
import ContainerMounts.Proofs.CallContracts
import ContainerMounts.Proofs.Planning
import ContainerMounts.Proofs.Preparation
import ContainerMounts.Proofs.RequestedFlags
import ContainerMounts.Proofs.SampleHost

namespace ContainerMounts

open MountFlags (Apart callModes)

/-! ## What calls leave on the target -/

/-- Everything at and below the path was made read-only: by the attribute
call, or, where the kernel does not have it, by a remount right behind. -/
inductive Protects (p : Path) (calls : List Moment) : Prop where
  | atOnce {moment : Moment} (hmem : moment ∈ calls)
      (hevent : moment.event = ⟨Contract.readonlyCall p, none⟩) : Protects p calls
  | fallback {first second : Moment} {flags : MountFlags} (hcalls : [first, second] <:+: calls)
      (hfirst : first.event = ⟨Contract.readonlyCall p, some .notImplemented⟩)
      (hsecond : second.event = ⟨Contract.remountBindCall p flags, none⟩)
      (hflags : flags.includes MountFlags.readonly = true) : Protects p calls

theorem Protects.mono {p : Path} {calls more : List Moment} (h : Protects p calls)
    (hmore : calls <:+: more) : Protects p more := by
  cases h with
  | atOnce hmem hevent => exact .atOnce (hmore.subset hmem) hevent
  | fallback hcalls hfirst hsecond hflags =>
      exact .fallback (hcalls.trans hmore) hfirst hsecond hflags

/-- The calls behind `base` leave such a surface on the target, whatever it
was before and whatever the sources of binds and copies have. -/
def Leaves (r : ResolvedPath) (base : List Moment) (p : Surface → Prop) (m : Machine) : Prop :=
  ∃ new, m.log = base ++ new ∧ ∀ start s, p (Surface.through r start s new)

/-- They leave a mount that grants the options. -/
abbrev Bears (r : ResolvedPath) (base : List Moment) (o : MountOptions) (m : Machine) : Prop :=
  Leaves r base (fun s => o.Granted s.mount) m

/-- The mount grants the options, and what was asked for below it is done as
well. -/
structure Served (r : ResolvedPath) (base : List Moment) (o : MountOptions) (m : Machine) :
    Prop where
  bears : Bears r base o m
  protects : o.isRecursiveReadonly = true →
    ∃ new, m.log = base ++ new ∧ Protects r.hostPath new

namespace Granting

variable {r : ResolvedPath} {base : List Moment} {o : MountOptions} {host : Host} {m m' : Machine}
  {call : KernelCall} {flags : MountFlags}

theorem isAimedAt_hostPath (r : ResolvedPath) (tree : FileTree) :
    r.isAimedAt tree (.at r.hostPath) = true := by
  simp [ResolvedPath.isAimedAt, Path.same]

theorem isAimedAt_pinned {tree : FileTree} {top : List Name} {spot : Spot}
    (hopen : tree.openDir r.rootfs.path = .ok top) (h : Rootfs.Pinned top r spot) :
    r.isAimedAt tree spot = true := by
  rcases h with rfl | rfl
  · simp [ResolvedPath.isAimedAt, hopen, Path.same]
  · exact isAimedAt_hostPath r tree

/-! ## One more call -/

theorem leaves_any (hbase : base <+: m.log) : Leaves r base (fun _ => True) m := by
  obtain ⟨new, hnew⟩ := hbase
  exact ⟨new, hnew.symm, fun _ _ => trivial⟩

theorem leaves_accepted {p q : Surface → Prop} (h : Leaves r base p m)
    (haccepted : Accepted m call m')
    (hcall : ∀ start s, p s → q (s.afterCall (r.isAimedAt m.tree) start call)) :
    Leaves r base q m' := by
  obtain ⟨new, hlog, hleft⟩ := h
  refine ⟨new ++ [⟨m.tree, ⟨call, none⟩⟩], by rw [haccepted.log, hlog, List.append_assoc], ?_⟩
  intro start s
  rw [Surface.through_concat]
  exact hcall _ _ (hleft start s)

theorem leaves_refused {p : Surface → Prop} {e : Errno} (h : Leaves r base p m)
    (hrefused : m'.log = m.log ++ [⟨m.tree, ⟨call, some e⟩⟩]) : Leaves r base p m' := by
  obtain ⟨new, hlog, hleft⟩ := h
  refine ⟨new ++ [⟨m.tree, ⟨call, some e⟩⟩], by rw [hrefused, hlog, List.append_assoc], ?_⟩
  intro start s
  rw [Surface.through_concat]
  exact hleft start s

/-! ## The calls, one by one -/

theorem granted_remount (h : o.Granted flags) (start now : MountFlags) :
    o.Granted (MountFlags.afterCall (flags ||| MountFlags.remount) start now) := by
  rw [MountFlags.afterCall_remount]
  exact (h.or (by decide)).ofMount

theorem granted_fresh (h : o.Granted flags) (hfresh : Apart flags callModes)
    (start now : MountFlags) : o.Granted (flags.afterCall start now) := by
  rw [MountFlags.afterCall_fresh hfresh]
  exact h.ofMount

/-- A remount with flags that grant the options takes nothing back, wherever
it is aimed. -/
theorem granted_remountBindCall {here : Spot → Bool} {p : Path} {start : MountFlags} {s : Surface}
    (hflags : o.Granted flags) (h : o.Granted s.mount) :
    o.Granted (s.afterCall here start (Contract.remountBindCall p flags)).mount := by
  unfold Surface.afterCall Contract.remountBindCall
  dsimp only
  split
  · exact granted_remount (hflags.or (by decide)) _ _
  · exact h

theorem granted_readonlyCall {here : Spot → Bool} {p : Path} {start : MountFlags} {s : Surface}
    (h : o.Granted s.mount) :
    o.Granted (s.afterCall here start (Contract.readonlyCall p)).mount := by
  unfold Surface.afterCall Contract.readonlyCall
  dsimp only
  split
  · exact h.readonlyChange
  · exact h

/-- A new filesystem with flags that grant the options. -/
theorem mountFilesystem {source target : Spot} {fsType data : String} (hbase : base <+: m.log)
    (haimed : r.isAimedAt m.tree target = true) (hfresh : Apart flags callModes)
    (hflags : o.Granted flags) :
    Contract .free host m (Run.mountFilesystem source target fsType flags data)
      fun _ m' => Bears r base o m' := by
  refine .mountFilesystem (fun _ => trivial) fun m' h => ?_
  apply leaves_accepted (leaves_any hbase) h
  intro start s _
  rw [Surface.afterCall, if_pos haimed]
  exact granted_fresh hflags hfresh _ _

theorem mountFilesystem? {source : Spot} {target : Spot} {fsType data : String}
    (hbase : base <+: m.log) (haimed : r.isAimedAt m.tree target = true)
    (hfresh : Apart flags callModes) (hflags : o.Granted flags) :
    Contract .free host m (Run.mountFilesystem? source target fsType flags data)
      fun e m' => e = none → Bears r base o m' := by
  refine .mountFilesystem? (fun _ => trivial) fun fault m' h hnone => ?_
  obtain rfl : fault = none := by simpa using hnone
  apply leaves_accepted (leaves_any hbase) h.accepted
  intro start s _
  rw [Surface.afterCall, if_pos haimed]
  exact granted_fresh hflags hfresh _ _

theorem remountBind (hbase : base <+: m.log) (hflags : o.Granted flags) :
    Contract .free host m (Run.remountBind r.hostPath flags) fun _ m' => Bears r base o m' := by
  refine .remountBind (fun _ => trivial) fun m' h => ?_
  apply leaves_accepted (leaves_any hbase) h
  intro start s _
  rw [Contract.remountBindCall, Surface.afterCall, if_pos (isAimedAt_hostPath r m.tree)]
  exact granted_remount (hflags.or (by decide)) _ _

theorem remount {data : String} (hbase : base <+: m.log) (hflags : o.Granted flags) :
    Contract .free host m (Run.remount r.hostPath flags data) fun _ m' => Bears r base o m' := by
  refine .remount (fun _ => trivial) fun m' h => ?_
  apply leaves_accepted (leaves_any hbase) h
  intro start s _
  rw [Surface.afterCall, if_pos (isAimedAt_hostPath r m.tree)]
  exact granted_remount hflags _ _

theorem bindMount {source target : Spot} {recursive : Bool} :
    Contract .free host m (Run.bindMount source target recursive) fun _ _ => True :=
  .bindMount (fun _ => trivial) fun _ _ => trivial

/-- Nothing is taken back on the way to a recursive read-only mount. -/
theorem makeReadonlyRecursive {p : Path} (hbears : Bears r base o m) (hflags : o.Granted flags) :
    Contract .free host m (Run.makeReadonlyRecursive p flags) fun _ m' =>
      Bears r base o m' ∧ ∃ new, m'.log = m.log ++ new ∧ Protects p new := by
  have hreadonly : o.Granted (flags ||| MountFlags.readonly) := hflags.or (by decide)
  refine .makeReadonlyRecursive (fun _ => trivial) (fun _ _ _ _ => trivial) ?_ ?_
  · intro m' h
    refine ⟨leaves_accepted hbears h fun _ _ hs => granted_readonlyCall hs, _, h.log, ?_⟩
    exact .atOnce (List.mem_singleton_self _) rfl
  · intro m₁ m' htree hlog h
    have hbears₁ : Bears r base o m₁ := leaves_refused hbears hlog
    refine ⟨leaves_accepted hbears₁ h fun _ _ hs => granted_remountBindCall hreadonly hs, ?_⟩
    refine ⟨_, by rw [h.log, hlog, List.append_assoc], ?_⟩
    refine .fallback (List.infix_rfl) rfl rfl ?_
    exact MountFlags.includes_or_right (by decide)

/-- A change of propagation leaves the flags. -/
theorem setPropagation {p : Path} {propagation : Propagation} (h : Served r base o m) :
    Contract .free host m (Run.setPropagation p propagation) fun _ m' => Served r base o m' := by
  refine .setPropagation (fun _ => trivial) fun m' haccepted => ⟨?_, fun hrro => ?_⟩
  · apply leaves_accepted h.bears haccepted
    intro start s hs
    unfold Surface.afterCall
    dsimp only
    split
    · rw [MountFlags.afterCall_propagation]
      exact hs
    · exact hs
  · obtain ⟨new, hlog, hprotects⟩ := h.protects hrro
    refine ⟨new ++ [_], by rw [haccepted.log, hlog, List.append_assoc], ?_⟩
    exact hprotects.mono (List.prefix_append _ _).isInfix

/-! ## proc, sysfs and the control groups -/

section Virtual

variable {data : String} {namespaces : Namespaces}

theorem tryFreshSysfs (hbase : base <+: m.log) (hfresh : Apart flags callModes)
    (hflags : o.Granted flags) :
    Contract .free host m (Run.tryFreshSysfs namespaces r.hostPath flags data)
      fun fresh m' => fresh = true → Bears r base o m' := by
  unfold Run.tryFreshSysfs
  split
  · apply Contract.andThen (mountFilesystem? hbase (isAimedAt_hostPath r _) hfresh hflags)
    intro e m₁ _ hmounted
    cases e with
    | none => exact .pure fun _ => hmounted rfl
    | some e =>
        dsimp only
        split
        · exact .pure fun h => by simp at h
        · exact .throw
  · exact .pure fun h => by simp at h

/-- The host's sysfs gets the flags by a remount; the control groups in it are
restricted only further. -/
theorem bindHostSysfs (hbase : base <+: m.log) (hflags : o.Granted flags) :
    Contract .free host m (Run.bindHostSysfs r.hostPath flags) fun _ m' => Bears r base o m' := by
  unfold Run.bindHostSysfs
  refine .bind (.read fun _ => .andThen bindMount fun _ m₁ hm₁ _ => ?_)
  refine .bind (.inherit fun table _ _ => ?_)
  apply Contract.andThen (remountBind (hbase.trans hm₁.log_grows) hflags.inherit)
  intro _ m₂ _ hbears
  split
  · exact (makeReadonlyRecursive hbears hflags).mono fun _ _ _ h => h.1
  · refine .bind (.isMountPoint fun table _ _ => ?_)
    split
    · exact (makeReadonlyRecursive hbears (hflags.or (by decide))).mono fun _ _ _ h => h.1
    · exact .pure hbears

theorem mountSysfs (hbase : base <+: m.log) (hfresh : Apart flags callModes)
    (hflags : o.Granted flags) :
    Contract .free host m (Run.mountSysfs namespaces r.hostPath flags data)
      fun _ m' => Bears r base o m' := by
  unfold Run.mountSysfs
  apply Contract.andThen (tryFreshSysfs hbase hfresh hflags)
  intro fresh m₁ hm₁ hbears
  split
  · rename_i hfresh
    exact .pure (hbears hfresh)
  · exact .andThen (bindHostSysfs (hbase.trans hm₁.log_grows) hflags)
      fun _ _ _ hbears => .pure hbears

theorem bindHostCgroup (hbase : base <+: m.log) (hflags : o.Granted flags) :
    Contract .free host m (Run.bindHostCgroup r.hostPath flags) fun _ m' => Bears r base o m' := by
  unfold Run.bindHostCgroup
  refine .bind (.read fun _ => .andThen bindMount fun _ m₁ hm₁ _ => ?_)
  refine .bind (.inherit fun table _ _ => ?_)
  apply Contract.andThen (remountBind (hbase.trans hm₁.log_grows) hflags.inherit)
  intro _ m₂ _ hbears
  exact (makeReadonlyRecursive hbears hflags).mono fun _ _ _ h => h.1

theorem tryFreshCgroup (hbase : base <+: m.log) (hfresh : Apart flags callModes)
    (hflags : o.Granted flags) :
    Contract .free host m (Run.tryFreshCgroup r.hostPath flags data)
      fun fresh m' => fresh = true → Bears r base o m' := by
  unfold Run.tryFreshCgroup
  apply Contract.andThen (mountFilesystem? hbase (isAimedAt_hostPath r _) hfresh hflags)
  intro e m₁ hm₁ _
  cases e with
  | none =>
      refine .bind (.inherit fun table _ _ => ?_)
      exact .andThen (remountBind (hbase.trans hm₁.log_grows) hflags.inherit)
        fun _ _ _ hbears => .pure fun _ => hbears
  | some e =>
      dsimp only
      split
      · exact .pure fun h => by simp at h
      · exact .throw

theorem addController {root target : Path} {name : Name} {node : Node} :
    Contract .free host m (Run.addController root target flags name node) fun _ _ => True := by
  cases node with
  | symlink text =>
      exact .bind (.change? (fun tree m₁ _ _ _ => ⟨trivial, fun _ => .pure trivial⟩)
        fun fault _ _ => .throw)
  | dir mode entries =>
      refine .bindController (fun _ _ => trivial) fun m₁ _ _ => ?_
      apply Contract.andThen bindMount
      intro _ m₂ _ _
      exact .bind (.inherit fun table _ _ => .remountBind (fun _ => trivial) fun _ _ => trivial)
  | _ => exact .pure trivial

/-- Whatever is done for the controllers, the directory in memory gets its
flags last. -/
theorem mountSynthetic (hbase : base <+: m.log) (hflags : o.Granted flags) :
    Contract .free host m (Run.mountSynthetic r.hostPath flags) fun _ m' => Bears r base o m' := by
  unfold Run.mountSynthetic
  have hmemory : Contract .free host m (Run.mountFilesystem (Run.sourceName "tmpfs")
      (.at r.hostPath) "tmpfs" (flags.without MountFlags.readonly) Run.syntheticData)
      fun _ _ => True := .mountFilesystem (fun _ => trivial) fun _ _ => trivial
  apply Contract.andThen hmemory
  intro _ m₁ hm₁ _
  refine .bind (.read fun _ => .bind (.ask fun entries _ _ => ?_))
  apply Contract.andThen (.addControllers fun _ _ _ _ => addController)
  intro _ m₂ hm₂ _
  exact remount ((hbase.trans hm₁.log_grows).trans hm₂.log_grows) hflags

theorem mountCgroup (hbase : base <+: m.log) (hfresh : Apart flags callModes)
    (hflags : o.Granted flags) :
    Contract .free host m (Run.mountCgroup namespaces r.hostPath flags data)
      fun _ m' => Bears r base o m' := by
  have hfresh' : Apart (flags ||| MountFlags.readonly) callModes := hfresh.or (by decide)
  have hflags' : o.Granted (flags ||| MountFlags.readonly) := hflags.or (by decide)
  unfold Run.mountCgroup
  refine .bind (.table fun table _ _ => .bind (.read fun _ => ?_))
  dsimp only
  split
  · apply Contract.andThen (tryFreshCgroup hbase hfresh' hflags')
    intro fresh m₁ hm₁ hbears
    split
    · rename_i hfresh
      exact .pure (hbears hfresh)
    · exact .andThen (bindHostCgroup (hbase.trans hm₁.log_grows) hflags')
        fun _ _ _ hbears => .pure hbears
  · exact .andThen (bindHostCgroup hbase hflags') fun _ _ _ hbears => .pure hbears
  · exact .andThen (mountSynthetic hbase hflags') fun _ _ _ hbears => .pure hbears

end Virtual

/-! ## Operations -/

section Operations

variable {ex : Executor} {op : MountOp} {target : Path}

theorem prepare {placeholder : Placeholder} (hkind : placeholder ≠ .parentOnly) :
    Contract .free host m (ex.rootfs.prepare target placeholder) fun r m' =>
      ex.rootfs.resolve m.tree target = .ok r ∧ r.rootfs = ex.rootfs ∧ m'.log = m.log := by
  refine (Rootfs.prepare_silent.promise fun _ h => .of_files trivial h.log_eq).mono ?_
  intro r m' _ h
  obtain ⟨hsilent, hr⟩ := h
  rw [decide_eq_true hkind] at hr
  exact ⟨hr, (Rootfs.resolveWith_eq_ok hr).1, hsilent.log_eq⟩

theorem pin (hroot : r.rootfs = ex.rootfs) :
    Contract .free host m (ex.rootfs.pin r) fun spot m' =>
      r.isAimedAt m'.tree spot = true ∧ m'.log = m.log := by
  apply Rootfs.pin_contract.mono
  intro spot m' _ h
  obtain ⟨htree, hlog, top, hopen, hpinned⟩ := h
  rw [← hroot, ← htree] at hopen
  exact ⟨isAimedAt_pinned hopen hpinned, hlog⟩

theorem finishReadonly (hbears : Bears r base o m) :
    Contract .free host m (Executor.finishReadonly r.hostPath o)
      fun _ m' => Served r base o m' := by
  unfold Executor.finishReadonly
  split
  · refine (makeReadonlyRecursive hbears (MountOptions.granted_flags o)).mono ?_
    intro _ m' _ h
    obtain ⟨hbears', new, hlog, hprotects⟩ := h
    obtain ⟨earlier, hbase, -⟩ := hbears
    refine ⟨hbears', fun _ => ⟨earlier ++ new, by rw [hlog, hbase, List.append_assoc], ?_⟩⟩
    exact hprotects.mono (List.suffix_append _ _).isInfix
  · rename_i hnot
    exact .pure ⟨hbears, fun h => absurd h hnot⟩

/-- The copy has the attributes before it gets to the target. -/
theorem bindIdMapped {source : Path} {pinned : Spot} {recursive : Bool} {mapping : OwnerMapping}
    (hbase : base <+: m.log) (haimed : r.isAimedAt m.tree pinned = true) :
    Contract .free host m
      (Run.bindIdMapped source pinned recursive mapping o.attrs o.clearedAttrs)
      fun _ m' => Bears r base o m' := by
  have hfree : ∀ m', (Promise.only (KernelCall.OfMappedBind source pinned)).Kept m m' →
      Promise.free.Kept m m' := fun _ h => h.imp (fun _ => trivial) fun _ _ _ _ => trivial
  apply (bindIdMapped_contract.promise hfree).mono
  intro _ m' _ h
  obtain ⟨-, m₁, m₂, m₃, real, hhelper, hclone, hset, hattach⟩ := h
  have htree : m₃.tree = m.tree := by
    rw [hset.tree, hclone.tree]
    exact hhelper.files.symm
  have hcopied : Leaves r base (fun _ => True) m₂ :=
    leaves_accepted (leaves_any (hbase.trans hhelper.log_grows)) hclone fun _ _ _ => trivial
  have hchanged : Leaves r base (fun s => o.Granted s.copy) m₃ :=
    leaves_accepted hcopied hset fun _ _ _ => o.granted_idmapChange
  apply leaves_accepted hchanged hattach
  intro start s hs
  rw [htree, Surface.afterCall, if_pos haimed]
  exact hs

theorem attachMapped {source : Path} {pinned : Spot} {mapping : OwnerMapping}
    (hbase : base <+: m.log) (haimed : r.isAimedAt m.tree pinned = true) :
    Contract .free host m (Executor.attachMapped source r.hostPath pinned o mapping)
      fun _ m' => Served r base o m' := by
  unfold Executor.attachMapped
  apply Contract.andThen (bindIdMapped hbase haimed)
  intro _ m₁ _ hbears
  exact .andThen (finishReadonly hbears) fun _ _ _ hserved => .pure hserved

theorem attachPlain {source : Path} {pinned : Spot} (hbase : base <+: m.log) :
    Contract .free host m (Executor.attachPlain source r.hostPath pinned o)
      fun _ m' => Served r base o m' := by
  have hfinish : ∀ m₁, Bears r base o m₁ → Contract .free host m₁ (do
      Executor.finishReadonly r.hostPath o
      return Outcome.mounted) fun _ m' => Served r base o m' := fun m₁ hbears =>
    .andThen (finishReadonly hbears) fun _ _ _ hserved => .pure hserved
  unfold Executor.attachPlain
  apply Contract.andThen bindMount
  intro _ m₁ hm₁ _
  have hbase₁ := hbase.trans hm₁.log_grows
  split
  · refine .bind (.inheritRelaxed fun table _ _ => ?_)
    exact .andThen (remountBind hbase₁ (o.granted_inheritRelaxed table r.hostPath))
      fun _ m₂ _ hbears => hfinish m₂ hbears
  · rename_i hnot
    obtain ⟨new, hnew⟩ := hbase₁
    refine hfinish m₁ ⟨new, hnew.symm, fun _ _ => ?_⟩
    exact MountOptions.granted_of_not_needsRemount (Bool.eq_false_iff.2 hnot)

/-- The operation is served where its destination leads. -/
def ServedFrom (ex : Executor) (op : MountOp) (m m' : Machine) : Prop :=
  ∃ r, ex.rootfs.resolve m.tree op.target = .ok r ∧ Served r m.log op.options m'

theorem bindSource {source : Path} {kind : FileKind} :
    Contract .free host m (ex.bindSource op source kind) fun _ m' => ServedFrom ex op m m' := by
  have hkind : kind.placeholder ≠ .parentOnly := by cases kind <;> decide
  unfold Executor.bindSource
  apply Contract.andThen (prepare hkind)
  intro r m₁ hm₁ hr
  obtain ⟨hr, hroot, -⟩ := hr
  apply Contract.andThen (pin hroot)
  intro pinned m₂ hm₂ hpinned
  obtain ⟨haimed, -⟩ := hpinned
  have hbase := hm₁.log_grows.trans hm₂.log_grows
  split
  · exact (attachMapped hbase haimed).mono fun _ _ _ hserved => ⟨r, hr, hserved⟩
  · exact (attachPlain hbase).mono fun _ _ _ hserved => ⟨r, hr, hserved⟩

theorem mountPlain {name : String} (hbase : base <+: m.log) (hroot : r.rootfs = ex.rootfs) :
    Contract .free host m (ex.mountPlain op name r) fun _ m' => Bears r base op.options m' := by
  unfold Executor.mountPlain
  apply Contract.andThen (pin hroot)
  intro pinned m₁ hm₁ hpinned
  obtain ⟨haimed, -⟩ := hpinned
  refine .andThen (mountFilesystem (hbase.trans hm₁.log_grows) haimed op.options.flags_fresh
    op.options.granted_flags) fun _ _ _ hbears => .pure hbears

theorem mountKind {name : String} (hbase : base <+: m.log) (hroot : r.rootfs = ex.rootfs) :
    Contract .free host m (ex.mountKind op name r) fun _ m' => Bears r base op.options m' := by
  have hfresh := op.options.flags_fresh
  have hflags := op.options.granted_flags
  unfold Executor.mountKind
  cases op.request.kind with
  | proc =>
      exact .andThen (mountFilesystem hbase (isAimedAt_hostPath r _) hfresh hflags)
        fun _ _ _ hbears => .pure hbears
  | sysfs =>
      apply Contract.andThen (mountSysfs hbase hfresh hflags)
      intro hosts m₁ _ hbears
      split
      · exact .pure hbears
      · exact .pure hbears
  | cgroup =>
      exact .andThen (mountCgroup hbase hfresh hflags) fun _ _ _ hbears => .pure hbears
  | _ => exact mountPlain hbase hroot

theorem mountVirtual {name : String} :
    Contract .free host m (ex.mountVirtual op name) fun _ m' => ServedFrom ex op m m' := by
  unfold Executor.mountVirtual
  apply Contract.andThen (prepare (by decide))
  intro r m₁ hm₁ hr
  obtain ⟨hr, hroot, -⟩ := hr
  apply Contract.andThen (mountKind hm₁.log_grows hroot)
  intro outcome m₂ _ hbears
  exact .andThen (finishReadonly hbears) fun _ _ _ hserved => .pure ⟨r, hr, hserved⟩

theorem propagate {options : MountOptions} (h : Served r base o m) :
    Contract .free host m (ex.propagate target options) fun _ m' => Served r base o m' := by
  unfold Executor.propagate
  split
  · exact .pure h
  · exact .bind (.tree fun _ => .bind (.lift fun _ _ _ => setPropagation h))

theorem applyMount (hsource : op.source.isSymlink = false) :
    Contract .free host m (ex.applyMount op) fun _ m' => ServedFrom ex op m m' := by
  have hpropagate : ∀ (outcome : Outcome) (m₁ : Machine), ServedFrom ex op m m₁ →
      Contract .free host m₁ (do
        ex.propagate op.target op.options
        return outcome) fun _ m' => ServedFrom ex op m m' := by
    intro outcome m₁ h
    obtain ⟨r, hr, hserved⟩ := h
    exact .andThen (propagate hserved) fun _ _ _ hserved' => .pure ⟨r, hr, hserved'⟩
  unfold Executor.applyMount
  split
  · rename_i text hlink
    simp [hlink, MountSource.isSymlink] at hsource
  · exact .andThen bindSource fun outcome m₁ _ h => hpropagate outcome m₁ h
  · exact .andThen mountVirtual fun outcome m₁ _ h => hpropagate outcome m₁ h
  · exact .throw

end Operations

end Granting

namespace Executor

/-- A tmpfs on `/t` that is read-only all the way down. -/
def guardedTmpfs : MountRequest :=
  { destination := "/t", kind := .tmpfs, options := ["rro", "nosuid", "noatime"] }

/-- The operation of that tmpfs. -/
def guardedTmpfsOp : MountOp :=
  { request := guardedTmpfs, target := ⟨[slash, 0x74]⟩, source := .virtual "tmpfs",
    options := { access := .recursiveReadOnly, suid := .denied, atime := .noatime },
    depth := 1, phase := .mount }

theorem build_guardedTmpfs :
    MountPlan.build (Sample.files [] []) { mounts := [guardedTmpfs] } = .ok ⟨[guardedTmpfsOp]⟩ :=
  MountPlan.build_eq_singleton rfl rfl rfl

end Executor

end ContainerMounts
