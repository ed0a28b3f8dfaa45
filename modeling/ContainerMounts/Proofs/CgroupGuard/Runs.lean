/-
ContainerMounts.Proofs.CgroupGuard.Runs — every way to provide control
groups leaves them guarded.

Each function that takes part has a contract that lists what it puts on
record, and the operation as a whole adds at most a recursive read-only
mount and a change of propagation. `apply_guards_cgroups` is the statement
for an operation of a plan.
-/
import ContainerMounts.Proofs.CgroupGuard
import ContainerMounts.Proofs.SampleHost

namespace ContainerMounts

/-- The calls on record behind those of the first machine are such. -/
def Adds (m : Machine) (p : List Moment → Prop) (m' : Machine) : Prop :=
  ∃ new, m'.log = m.log ++ new ∧ p new

namespace Adds

variable {m m₁ m' : Machine} {call : KernelCall} {p q t : List Moment → Prop}

theorem append (h : Adds m p m₁) (h' : Adds m₁ q m') (hpq : ∀ xs ys, p xs → q ys → t (xs ++ ys)) :
    Adds m t m' := by
  obtain ⟨xs, hxs, hp⟩ := h
  obtain ⟨ys, hys, hq⟩ := h'
  exact ⟨xs ++ ys, by rw [hys, hxs, List.append_assoc], hpq xs ys hp hq⟩

theorem mono (h : Adds m p m') (hpq : ∀ calls, p calls → q calls) : Adds m q m' := by
  obtain ⟨new, hlog, hp⟩ := h
  exact ⟨new, hlog, hpq new hp⟩

theorem of_log_eq (hlog : m₁.log = m.log) (h : Adds m₁ p m') : Adds m p m' := by
  obtain ⟨new, hnew, hp⟩ := h
  exact ⟨new, by rw [hnew, hlog], hp⟩

theorem of_accepted (h : Accepted m call m') (hp : p [⟨m.tree, ⟨call, none⟩⟩]) : Adds m p m' :=
  ⟨_, h.log, hp⟩

theorem pair {first second : Moment} (hfirst : m₁.log = m.log ++ [first])
    (hsecond : m'.log = m₁.log ++ [second]) (hp : p [first, second]) : Adds m p m' :=
  ⟨[first, second], by rw [hsecond, hfirst, List.append_assoc]; rfl, hp⟩

end Adds

namespace Guarding

variable {host : Host} {m m' : Machine} {root source target dest : Path} {flags : MountFlags}
  {data : String} {namespaces : Namespaces}

/-- A call that binds nothing may be refused. -/
theorem adds_issued {call : KernelCall} {fault : Option Fault} (h : Issued m call fault m')
    (hcall : ¬ call.IsBind) : Adds m (InOrder (Guarded host target)) m' := by
  cases h with
  | withheld tree log => exact ⟨[], by simpa using log, trivial⟩
  | made tree log => exact ⟨_, log, guarded_singleton hcall⟩

theorem makeReadonlyRecursive {g : Promise} {p : Path} (hcall : ∀ log moment, g.call log moment) :
    Contract g host m (Run.makeReadonlyRecursive p flags) fun _ m' =>
      Adds m (MadeReadonly p) m' := by
  refine .makeReadonlyRecursive (fun _ => hcall _ _) (fun _ _ _ _ => hcall _ _) (fun m' h => ?_)
    fun m₁ m' _ hlog h => ?_
  · exact .of_accepted h (.atOnce rfl)
  · refine .pair hlog h.log (.fallback rfl rfl ?_)
    exact MountFlags.includes_or_right (by decide)

/-- A tree of the host is bound and gets its flags, before anything else. -/
theorem hostBound {g : Promise} {β : Type} {next : Run β} {post : β → Machine → Prop}
    (hcall : ∀ log moment, g.call log moment)
    (h : ∀ m₁, Adds m (HostBound root target) m₁ → Contract g host m₁ next post) :
    Contract g host m (do
      Run.bindMount (.at root) (.at target) true
      Run.remountBind target (← Run.inherit target flags)
      next) post := by
  refine .bind (.bindMount (fun _ => hcall _ _) fun m₁ hbound _ =>
    .bind (.inherit fun table _ _ => ?_))
  refine .bind (.remountBind (fun _ => hcall _ _) fun m₂ hremounted _ => h m₂ ?_)
  exact .pair hbound.log hremounted.log (.mk rfl rfl)

/-! ## sysfs -/

theorem bindHostSysfs :
    Contract .free host m (Run.bindHostSysfs target flags) fun _ m' =>
      ∃ bound rest, m'.log = m.log ++ bound ++ rest ∧ HostBound host.paths.sysfsRoot target bound
        ∧ (flags.includes MountFlags.readonly = true → Protects target rest)
        ∧ (flags.includes MountFlags.readonly = false → ∀ table,
          host.table ((m.log ++ bound).map (·.event)) = .ok table →
          (∃ r ∈ table, r.target.same (cgroupDir target) = true) →
          Protects (cgroupDir target) rest) := by
  unfold Run.bindHostSysfs
  refine .bind (.read fun _ => hostBound (fun _ _ => trivial) fun m₁ hbound => ?_)
  obtain ⟨bound, hlog, hbound⟩ := hbound
  split
  · rename_i hreadonly
    refine (makeReadonlyRecursive fun _ _ => trivial).mono fun _ m' _ hmade => ?_
    obtain ⟨rest, hlog', hmade⟩ := hmade
    exact ⟨bound, rest, by rw [hlog', hlog], hbound, fun _ => hmade.protects,
      fun hnot => by simp [hreadonly] at hnot⟩
  · rename_i hwritable
    refine .bind (.isMountPoint fun table htable _ => ?_)
    split
    · refine (makeReadonlyRecursive fun _ _ => trivial).mono fun _ m' _ hmade => ?_
      obtain ⟨rest, hlog', hmade⟩ := hmade
      exact ⟨bound, rest, by rw [hlog', hlog], hbound, fun h => absurd h hwritable,
        fun _ _ _ _ => hmade.protects⟩
    · rename_i hnone
      refine .pure ⟨bound, [], by rw [hlog, List.append_nil], hbound, fun h => absurd h hwritable,
        fun _ table' htable' hlisted => ?_⟩
      rw [Machine.events, hlog] at htable
      obtain rfl := Except.ok.inj (htable.symm.trans htable')
      simp only [Path.same_iff] at hlisted
      exact absurd (MountTable.isMountPoint_iff.2 hlisted) hnone

theorem tryFreshSysfs :
    Contract .free host m (Run.tryFreshSysfs namespaces target flags data) fun _ _ => True := by
  unfold Run.tryFreshSysfs
  split
  · refine .bind (.mountFilesystem? (fun _ => trivial) fun fault m₁ _ _ => ?_)
    cases fault with
    | none => exact .pure trivial
    | some fault =>
        dsimp only [Option.map_some]
        split
        · exact .pure trivial
        · exact .throw
  · exact .pure trivial

/-- A refused new sysfs may come before the host's. -/
theorem mountSysfs {o : MountOptions} :
    Contract .free host m (Run.mountSysfs namespaces target o.flags data) fun ofHost m' =>
      Adds m (fun calls => ofHost = true → SysfsGuarded host m.log target o calls) m' := by
  refine .andThen tryFreshSysfs fun fresh m₁ hm₁ _ => ?_
  obtain ⟨first, hfirst⟩ := hm₁.log_grows
  split
  · exact .pure ⟨first, hfirst.symm, nofun⟩
  · refine .andThen bindHostSysfs fun _ m₂ _ hbound => .pure ?_
    obtain ⟨bound, rest, hlog, hbound, hreadonly, hwritable⟩ := hbound
    rw [o.includes_readonly_flags, ← hfirst] at *
    exact ⟨first ++ bound ++ rest, by rw [hlog]; simp, fun _ =>
      ⟨first, bound, rest, rfl, hbound, hreadonly, hwritable⟩⟩

/-! ## Control groups -/

theorem bindHostCgroup :
    Contract .free host m (Run.bindHostCgroup target flags) fun _ m' =>
      Adds m (CgroupGuarded host target) m' := by
  unfold Run.bindHostCgroup
  refine .bind (.read fun _ => hostBound (fun _ _ => trivial) fun m₁ hbound => ?_)
  exact (makeReadonlyRecursive fun _ _ => trivial).mono fun _ _ _ hmade =>
    hbound.append hmade fun _ _ hbound hmade => hbound.cgroupGuarded hmade

theorem tryFreshCgroup (hreadonly : flags.includes MountFlags.readonly = true) :
    Contract .free host m (Run.tryFreshCgroup target flags data) fun fresh m' =>
      Adds m (fun calls => InOrder (Guarded host target) calls
        ∧ (fresh = true → EndsReadonly target calls)) m' := by
  refine .bind (.mountFilesystem? (fun _ => trivial) fun fault m₁ hissued _ => ?_)
  have hmounted : Adds m (InOrder (Guarded host target)) m₁ :=
    adds_issued hissued KernelCall.not_isBind_of_fsType
  cases fault with
  | none =>
      refine .bind (.inherit fun table _ _ => .bind (.remountBind (fun _ => trivial)
        fun m₂ hremounted _ => .pure ?_))
      have hflags : (table.inherit target flags).includes MountFlags.readonly = true :=
        MountTable.inherit_includes_wanted hreadonly
      refine hmounted.append (.of_accepted (p := fun calls => InOrder (Guarded host target) calls
        ∧ EndsReadonly target calls) hremounted ⟨?_, ?_⟩) fun _ _ hx hy =>
          ⟨guarded_append hx hy.1, fun _ => hy.2.behind⟩
      · exact guarded_singleton KernelCall.not_isBind_of_source
      · exact endsReadonly_singleton rfl (setsReadonly_remountBindCall hflags)
  | some fault =>
      dsimp only [Option.map_some]
      split
      · exact .pure (hmounted.mono fun _ h => ⟨h, nofun⟩)
      · exact .throw

/-- The bind of a controller is made read-only at once. -/
theorem bindController (hreadonly : flags.includes MountFlags.readonly = true) :
    Contract .free host m (Run.bindController source dest flags) fun _ m' =>
      Adds m (InOrder (Guarded host target)) m' := by
  refine .bindController (fun _ _ => trivial) fun m₁ _ hlog => ?_
  refine .bind (.bindMount (fun _ => trivial) fun m₂ hbound _ => ?_)
  refine .bind (.inherit fun table _ _ => ?_)
  refine .remountBind (fun _ => trivial) fun m₃ hremounted => ?_
  refine .of_log_eq hlog (.pair hbound.log hremounted.log ⟨⟨?_, ?_⟩, ?_⟩)
  · intro source' dest' hevent
    obtain ⟨rfl, rfl⟩ : .at source = source' ∧ .at dest = dest' := by simpa using hevent
    exact ⟨dest, _, _, [], rfl, rfl, rfl, MountTable.inherit_includes_wanted hreadonly⟩
  · intro source' dest' hevent
    simp [Contract.bindFlags, MountFlags.bind, MountFlags.recursive] at hevent
  · exact guarded_singleton KernelCall.not_isBind_of_source

theorem addController {name : Name} {node : Node}
    (hreadonly : flags.includes MountFlags.readonly = true) :
    Contract .free host m (Run.addController root target flags name node) fun _ m' =>
      Adds m (InOrder (Guarded host target)) m' := by
  have hnothing : ∀ m', m'.log = m.log → Adds m (InOrder (Guarded host target)) m' :=
    fun m' hlog => ⟨[], by simpa using hlog, trivial⟩
  cases node with
  | symlink text =>
      refine .bind (.change? (fun tree m₁ _ _ hlog => ⟨trivial, fun _ => .pure (hnothing m₁ hlog)⟩)
        fun fault _ _ => .throw)
  | dir perm entries => exact bindController hreadonly
  | _ => exact .pure (hnothing m rfl)

theorem addControllers {entries : List (Name × Node)}
    (hreadonly : flags.includes MountFlags.readonly = true) :
    Contract .free host m (Run.addControllers root target flags entries) fun _ m' =>
      Adds m (InOrder (Guarded host target)) m' := by
  induction entries generalizing m with
  | nil => exact .pure ⟨[], by simp, trivial⟩
  | cons entry rest ih =>
      refine .andThen (addController hreadonly) fun _ m₁ _ hfirst => ih.mono fun _ _ _ hrest => ?_
      exact hfirst.append hrest fun _ _ => guarded_append

/-- The directory in memory is made read-only when all is in it. -/
theorem mountSynthetic (hreadonly : flags.includes MountFlags.readonly = true) :
    Contract .free host m (Run.mountSynthetic target flags) fun _ m' =>
      Adds m (CgroupGuarded host target) m' := by
  refine .bind (.mountFilesystem (fun _ => trivial) fun m₁ hmemory _ => ?_)
  refine .bind (.read fun _ => .bind (.ask fun entries _ _ => ?_))
  refine .andThen (addControllers hreadonly) fun _ m₂ _ hcontrollers => ?_
  refine .remount (fun _ => trivial) fun m' hlast => ?_
  have hstart : Adds m (InOrder (Guarded host target)) m₁ :=
    .of_accepted hmemory (guarded_singleton KernelCall.not_isBind_of_fsType)
  have hend : Adds m₂ (CgroupGuarded host target) m' := by
    refine .of_accepted hlast ⟨endsReadonly_singleton rfl (.remount ?_ ?_), ?_⟩
    · exact MountFlags.includes_or_right (by decide)
    · exact MountFlags.includes_or_left hreadonly
    · exact guarded_singleton KernelCall.not_isBind_of_source
  exact (hstart.append hcontrollers fun _ _ => guarded_append).append hend
    fun _ _ hx hy => ⟨hy.last.behind, guarded_append hx hy.binds⟩

theorem mountCgroup :
    Contract .free host m (Run.mountCgroup namespaces target flags data) fun _ m' =>
      Adds m (CgroupGuarded host target) m' := by
  have hreadonly : (flags ||| MountFlags.readonly).includes MountFlags.readonly = true :=
    MountFlags.includes_or_right (by decide)
  refine .bind (.table fun table _ _ => .bind (.read fun _ => ?_))
  dsimp only
  split
  · refine .andThen (tryFreshCgroup hreadonly) fun fresh m₁ _ htried => ?_
    split
    · rename_i hfresh
      exact .pure (htried.mono fun _ h => ⟨h.2 hfresh, h.1⟩)
    · refine .andThen bindHostCgroup fun _ m₂ _ hbound => .pure ?_
      exact htried.append hbound fun _ _ hx hy => ⟨hy.last.behind, guarded_append hx.1 hy.binds⟩
  · exact .andThen bindHostCgroup fun _ _ _ hbound => .pure hbound
  · exact .andThen (mountSynthetic hreadonly) fun _ _ _ hmounted => .pure hmounted

/-! ## Operations -/

section Operations

variable {ex : Executor} {op : MountOp} {name : String}

/-- What holds of the calls that mount a filesystem holds of all calls of the
operation, if a recursive read-only mount and a change of propagation do it
no harm. -/
theorem applyMount {q : ResolvedPath → Outcome → List Moment → Prop}
    (hsource : op.source = .virtual name)
    (hkind : ∀ r m₁, m₁.log = m.log → Contract .free host m₁ (ex.mountKind op name r)
      fun outcome m' => Adds m₁ (q r outcome) m')
    (hreadonly : ∀ r outcome xs ys, q r outcome xs → MadeReadonly r.hostPath ys →
      q r outcome (xs ++ ys))
    (hpropagated : ∀ r outcome xs moment, q r outcome xs → moment.event.call.IsPropagation →
      q r outcome (xs ++ [moment])) :
    Contract .free host m (ex.applyMount op) fun outcome m' =>
      ∃ r, ex.rootfs.resolve m.tree op.target = .ok r ∧ Adds m (q r outcome) m' := by
  have hmount : Contract .free host m (ex.mountVirtual op name) fun outcome m' =>
      ∃ r, ex.rootfs.resolve m.tree op.target = .ok r ∧ Adds m (q r outcome) m' := by
    refine .andThen (Granting.prepare (by decide)) fun r m₁ _ hr => ?_
    obtain ⟨hr, -, hlog⟩ := hr
    refine .andThen (hkind r m₁ hlog) fun outcome m₂ _ hmounted => ?_
    have hmounted := Adds.of_log_eq hlog hmounted
    have hfinish : Contract .free host m₂ (Executor.finishReadonly r.hostPath op.options)
        fun _ m' => Adds m (q r outcome) m' := by
      unfold Executor.finishReadonly
      split
      · exact (makeReadonlyRecursive fun _ _ => trivial).mono fun _ _ _ hmade =>
          hmounted.append hmade fun _ _ => hreadonly r outcome _ _
      · exact .pure hmounted
    exact .andThen hfinish fun _ _ _ hfinished => .pure ⟨r, hr, hfinished⟩
  unfold Executor.applyMount
  rw [hsource]
  refine .andThen hmount fun outcome m₁ _ h => ?_
  obtain ⟨r, hr, hmounted⟩ := h
  have hpropagate : Contract .free host m₁ (ex.propagate op.target op.options)
      fun _ m' => Adds m (q r outcome) m' := by
    unfold Executor.propagate
    split
    · exact .pure hmounted
    · refine .bind (.tree fun _ => .bind (.lift fun r' _ _ => ?_))
      refine .setPropagation (fun _ => trivial) fun m' haccepted => ?_
      refine hmounted.append (.of_accepted (p := fun calls => ∃ moment, calls = [moment]
        ∧ moment.event.call.IsPropagation) haccepted ⟨_, rfl, _, _, rfl⟩) fun xs ys hx hy => ?_
      obtain ⟨moment, rfl, hcall⟩ := hy
      exact hpropagated r outcome xs moment hx hcall
  exact .andThen hpropagate fun _ _ _ hpropagated => .pure ⟨r, hr, hpropagated⟩

theorem applyMount_cgroup (hsource : op.source = .virtual name)
    (hkind : op.request.kind = .cgroup) :
    Contract .free host m (ex.applyMount op) fun _ m' =>
      ∃ r, ex.rootfs.resolve m.tree op.target = .ok r
        ∧ Adds m (CgroupGuarded host r.hostPath) m' := by
  refine applyMount (q := fun r _ => CgroupGuarded host r.hostPath) hsource (fun r m₁ _ => ?_)
    (fun _ _ _ _ h => h.readonly) fun _ _ _ _ h => h.propagated
  unfold Executor.mountKind
  rw [hkind]
  exact .andThen mountCgroup fun _ _ _ hmounted => .pure hmounted

theorem applyMount_sysfs (hsource : op.source = .virtual name)
    (hkind : op.request.kind = .sysfs) :
    Contract .free host m (ex.applyMount op) fun outcome m' =>
      ∃ r, ex.rootfs.resolve m.tree op.target = .ok r
        ∧ Adds m (fun calls => outcome = .hostSysfs →
          SysfsGuarded host m.log r.hostPath op.options calls) m' := by
  refine applyMount (q := fun r outcome calls => outcome = .hostSysfs →
    SysfsGuarded host m.log r.hostPath op.options calls) hsource (fun r m₁ hlog => ?_)
    (fun _ _ _ _ h _ hhost => (h hhost).append) fun _ _ _ _ h _ hhost => (h hhost).append
  unfold Executor.mountKind
  rw [hkind]
  refine .andThen mountSysfs fun ofHost m₂ _ hmounted => ?_
  rw [hlog] at hmounted
  split
  · rename_i hhost
    exact .pure (hmounted.mono fun _ h _ => h hhost)
  · exact .pure (hmounted.mono fun _ _ => nofun)

end Operations

end Guarding

namespace Executor

/-- **The control groups are never left writable.** Let an operation of a plan
succeed, on any host. If it provides control groups, the last call that sets
flags of the mount on its target makes it read-only, whatever the options
say; the call behind the bind of a controller makes it read-only; and behind
a bind of the host's hierarchy comes a recursive read-only mount. If it binds
the host's sysfs, all of it is made read-only if the options ask for that,
and otherwise its control groups are, provided the table lists a mount
there. -/
theorem apply_guards_cgroups (ex : Executor) (host : Host) (m : Machine) {tree : FileTree}
    {input : PlanInput} {plan : MountPlan} {op : MountOp} {outcome : Outcome}
    (hplan : MountPlan.build tree input = .ok plan) (hop : op ∈ plan.ops)
    (happly : ((ex.apply op).result host m).1 = .ok outcome) :
    (op.request.kind = .cgroup → ∃ r new, ex.rootfs.resolve m.tree op.target = .ok r
      ∧ ((ex.apply op).result host m).2.log = m.log ++ new ∧ EndsReadonly r.hostPath new
      ∧ ∀ before moment after, new = before ++ moment :: after →
        Guarded host r.hostPath moment after)
    ∧ (op.request.kind = .sysfs → outcome = .hostSysfs →
      ∃ o r new, MountOptions.parse op.request.options = .ok o
        ∧ ex.rootfs.resolve m.tree op.target = .ok r
        ∧ ((ex.apply op).result host m).2.log = m.log ++ new
        ∧ SysfsGuarded host m.log r.hostPath o new) := by
  have hvirtual (hkind : op.request.kind ≠ .bind) :
      ex.apply op = ex.applyMount op ∧ (∃ name, op.source = .virtual name)
        ∧ MountOptions.parse op.request.options = .ok op.options := by
    obtain ⟨hoverlay, hsource, hparse⟩ := MountPlan.virtual_of_mem hplan hop hkind
    exact ⟨by rw [apply, hoverlay], hsource, hparse⟩
  constructor
  · intro hkind
    obtain ⟨hmount, ⟨name, hsource⟩, -⟩ := hvirtual (by simp [hkind])
    rw [hmount] at happly ⊢
    obtain ⟨r, hr, new, hlog, hguarded⟩ :=
      (Guarding.applyMount_cgroup hsource hkind).returns outcome happly
    exact ⟨r, new, hr, hlog, hguarded.last, fun before moment after heq => hguarded.binds.at heq⟩
  · intro hkind hhost
    obtain ⟨hmount, ⟨name, hsource⟩, hparse⟩ := hvirtual (by simp [hkind])
    rw [hmount] at happly ⊢
    obtain ⟨r, hr, new, hlog, hguarded⟩ :=
      (Guarding.applyMount_sysfs hsource hkind).returns outcome happly
    exact ⟨op.options, r, new, hparse, hr, hlog, hguarded hhost⟩

/-- Control groups on `/c`, writable. -/
def groupRequest : MountRequest := { destination := "/c", kind := .cgroup, options := ["rw"] }

/-- The operation of that request. -/
def groupOp : MountOp :=
  { request := groupRequest, target := ⟨[slash, 0x63]⟩, source := .virtual "cgroup2",
    options := { access := .readWrite }, depth := 1, phase := .mount }

/-- A read-only sysfs on `/s`. -/
def sysfsRequest : MountRequest := { destination := "/s", kind := .sysfs, options := ["ro"] }

/-- The operation of that request. -/
def sysfsOp : MountOp :=
  { request := sysfsRequest, target := ⟨[slash, 0x73]⟩, source := .virtual "sysfs",
    options := { access := .readOnly }, depth := 1, phase := .mount }

/-- An operation, carried out with a network of its own or not. -/
def groupRun (net : Bool) (op : MountOp) : Except Error Outcome × Machine :=
  (Executor.apply { Sample.executor with namespaces := { net } } op).result Sample.groupHost
    { tree := Sample.groups }

theorem build_group :
    MountPlan.build Sample.groups { mounts := [groupRequest] } = .ok ⟨[groupOp]⟩ :=
  MountPlan.build_eq_singleton rfl rfl rfl

theorem build_sysfs :
    MountPlan.build Sample.groups { mounts := [sysfsRequest] } = .ok ⟨[sysfsOp]⟩ :=
  MountPlan.build_eq_singleton rfl rfl rfl

theorem apply_guards_cgroups_rw :
    MountPlan.build Sample.groups { mounts := [groupRequest] } = .ok ⟨[groupOp]⟩
    ∧ (groupRun true groupOp).1 = .ok (.cgroup .synthetic)
    ∧ (∃ r new, Sample.root.resolve Sample.groups groupOp.target = .ok r
      ∧ (groupRun true groupOp).2.log = [] ++ new ∧ EndsReadonly r.hostPath new
      ∧ ∀ before moment after, new = before ++ moment :: after →
        Guarded Sample.groupHost r.hostPath moment after)
    ∧ MountPlan.build Sample.groups { mounts := [sysfsRequest] } = .ok ⟨[sysfsOp]⟩
    ∧ (groupRun false sysfsOp).1 = .ok .hostSysfs
    ∧ ∃ o r new, MountOptions.parse sysfsRequest.options = .ok o
      ∧ Sample.root.resolve Sample.groups sysfsOp.target = .ok r
      ∧ (groupRun false sysfsOp).2.log = [] ++ new
      ∧ SysfsGuarded Sample.groupHost [] r.hostPath o new := by
  have hgroup : (groupRun true groupOp).1 = .ok (.cgroup .synthetic) := by decide +kernel
  have hsysfs : (groupRun false sysfsOp).1 = .ok .hostSysfs := by decide +kernel
  refine ⟨build_group, hgroup, ?_, build_sysfs, hsysfs, ?_⟩
  · unfold groupRun at hgroup ⊢
    exact (apply_guards_cgroups _ Sample.groupHost { tree := Sample.groups } build_group
      (List.mem_singleton_self groupOp) hgroup).1 rfl
  · unfold groupRun at hsysfs ⊢
    exact (apply_guards_cgroups _ Sample.groupHost { tree := Sample.groups } build_sysfs
      (List.mem_singleton_self sysfsOp) hsysfs).2 rfl rfl

end Executor

end ContainerMounts
