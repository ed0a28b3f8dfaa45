/-
ContainerMounts.Proofs.CgroupGuard — a container cannot write to the control
groups.

Control groups reach a container as a new instance, as the host's hierarchy
or as a directory in memory with a bind of each controller, and in part with
the host's sysfs. Whatever was asked for and whichever way is taken, the
last call that sets flags of the mount makes it read-only (`EndsReadonly`),
and so does the call behind each bind (`Guarded`). The host's sysfs is
read-only all the way down if that was asked for, and in its control groups
otherwise (`SysfsGuarded`).

Each way is a few calls long and its contract lists them (`Adds`), so that
the calls of an operation are those of its parts, one list after the other.
-/
import ContainerMounts.Proofs.EnclosingMount
import ContainerMounts.Proofs.RequestedFlags.Runs

namespace ContainerMounts

/-! ## Calls that make a mount read-only -/

/-- The flags of options are read-only exactly if that is asked for. -/
theorem MountOptions.includes_readonly_flags (o : MountOptions) :
    o.flags.includes MountFlags.readonly = o.isReadonly :=
  flags_includes (r := .readonly)

namespace KernelCall

/-- The call makes the mount on the path read-only. -/
inductive SetsReadonly (p : Path) : KernelCall → Prop where
  | remount {flags : MountFlags} {data : Option String}
      (hremount : flags.includes MountFlags.remount = true)
      (hreadonly : flags.includes MountFlags.readonly = true) :
      SetsReadonly p (.mount none (.at p) none flags data)
  | attribute {flags : AtFlags} {change : AttrChange}
      (h : MountFlags.includes change.set MountAttrs.readonly = true) :
      SetsReadonly p (.setAttrAt p flags change)

/-- The call changes how mount events travel, and no flag of a mount. -/
def IsPropagation (call : KernelCall) : Prop :=
  ∃ (p : Path) (propagation : Propagation), call = .mount none (.at p) none propagation.flags none

/-- The call binds a tree. -/
def IsBind (call : KernelCall) : Prop :=
  ∃ source target recursive,
    call = .mount (some source) target none (Contract.bindFlags recursive) none

theorem not_isBind_of_fsType {source : Option Spot} {target : Spot} {fsType : String}
    {flags : MountFlags} {data : Option String} :
    ¬ IsBind (.mount source target (some fsType) flags data) := by
  rintro ⟨_, _, _, h⟩
  simp at h

theorem not_isBind_of_source {target : Spot} {fsType : Option String} {flags : MountFlags}
    {data : Option String} : ¬ IsBind (.mount none target fsType flags data) := by
  rintro ⟨_, _, _, h⟩
  simp at h

theorem not_isBind_setAttrAt {p : Path} {flags : AtFlags} {change : AttrChange} :
    ¬ IsBind (.setAttrAt p flags change) := by
  rintro ⟨_, _, _, h⟩
  simp at h

end KernelCall

/-- The last of the calls that set flags makes the mount on the path
read-only. -/
def EndsReadonly (p : Path) (calls : List Moment) : Prop :=
  ∃ before moment after, calls = before ++ moment :: after ∧ moment.event.refusal = none
    ∧ moment.event.call.SetsReadonly p ∧ ∀ later ∈ after, later.event.call.IsPropagation

/-- The call, unless it is a bind, is of no concern. A bind of a controller
is made read-only by the next call. A bind of a whole hierarchy is one of
the host's on the target, which is then made read-only all the way down. -/
structure Guarded (host : Host) (target : Path) (moment : Moment) (after : List Moment) :
    Prop where
  controller : ∀ source dest,
    moment.event = ⟨.mount (some source) dest none (Contract.bindFlags false) none, none⟩ →
    ∃ p flags next rest, dest = .at p ∧ after = next :: rest
      ∧ next.event = ⟨Contract.remountBindCall p flags, none⟩
      ∧ flags.includes MountFlags.readonly = true
  hierarchy : ∀ source dest,
    moment.event = ⟨.mount (some source) dest none (Contract.bindFlags true) none, none⟩ →
    source = .at host.paths.cgroupRoot ∧ dest = .at target ∧ Protects target after

/-- The mount on the target ends up read-only, and so does each bind. -/
structure CgroupGuarded (host : Host) (target : Path) (calls : List Moment) : Prop where
  last : EndsReadonly target calls
  binds : InOrder (Guarded host target) calls

/-- The calls that make everything at and below the path read-only. -/
inductive MadeReadonly (p : Path) : List Moment → Prop where
  | atOnce {moment : Moment} (h : moment.event = ⟨Contract.readonlyCall p, none⟩) :
      MadeReadonly p [moment]
  | fallback {first second : Moment} {flags : MountFlags}
      (hfirst : first.event = ⟨Contract.readonlyCall p, some .notImplemented⟩)
      (hsecond : second.event = ⟨Contract.remountBindCall p flags, none⟩)
      (hflags : flags.includes MountFlags.readonly = true) : MadeReadonly p [first, second]

/-- The calls that bind a tree of the host with all that is mounted in it and
set the flags of the bind. -/
inductive HostBound (root target : Path) : List Moment → Prop where
  | mk {first second : Moment} {flags : MountFlags}
      (hfirst : first.event
        = ⟨.mount (some (.at root)) (.at target) none (Contract.bindFlags true) none, none⟩)
      (hsecond : second.event = ⟨Contract.remountBindCall target flags, none⟩) :
      HostBound root target [first, second]

/-- Where the control groups are in a sysfs. -/
def cgroupDir (target : Path) : Path := target.join (Path.ofString "fs/cgroup")

/-- The host's sysfs was bound, and is read-only if that was asked for. If it
was not, its control groups are, provided they were a mount of their own
when the bind was done. -/
def SysfsGuarded (host : Host) (log : List Moment) (target : Path) (o : MountOptions)
    (calls : List Moment) : Prop :=
  ∃ first bound rest, calls = first ++ bound ++ rest ∧ HostBound host.paths.sysfsRoot target bound
    ∧ (o.isReadonly = true → Protects target rest)
    ∧ (o.isReadonly = false → ∀ table,
      host.table ((log ++ first ++ bound).map (·.event)) = .ok table →
      (∃ r ∈ table, r.target.same (cgroupDir target) = true) → Protects (cgroupDir target) rest)

section Calls

variable {host : Host} {p q target : Path} {moment : Moment} {xs ys : List Moment}

theorem EndsReadonly.behind (h : EndsReadonly p ys) : EndsReadonly p (xs ++ ys) := by
  obtain ⟨before, moment, after, rfl, hrest⟩ := h
  exact ⟨xs ++ before, moment, after, (List.append_assoc ..).symm, hrest⟩

theorem EndsReadonly.propagated (h : EndsReadonly p xs)
    (hcall : moment.event.call.IsPropagation) : EndsReadonly p (xs ++ [moment]) := by
  obtain ⟨before, last, after, rfl, hrefusal, hreadonly, hafter⟩ := h
  refine ⟨before, last, after ++ [moment], by simp, hrefusal, hreadonly, ?_⟩
  exact List.forall_mem_append.2 ⟨hafter, List.forall_mem_singleton.2 hcall⟩

theorem endsReadonly_singleton (hrefusal : moment.event.refusal = none)
    (hcall : moment.event.call.SetsReadonly p) : EndsReadonly p [moment] :=
  ⟨[], moment, [], rfl, hrefusal, hcall, by simp⟩

theorem setsReadonly_remountBindCall {flags : MountFlags}
    (h : flags.includes MountFlags.readonly = true) :
    (Contract.remountBindCall p flags).SetsReadonly p :=
  .remount (MountFlags.includes_or_right (by decide))
    (MountFlags.includes_or_left (MountFlags.includes_or_left h))

theorem Guarded.mono {after more : List Moment} (h : Guarded host target moment after) :
    Guarded host target moment (after ++ more) := by
  refine ⟨fun source dest hevent => ?_, fun source dest hevent => ?_⟩
  · obtain ⟨p, flags, next, rest, hdest, rfl, hnext⟩ := h.controller source dest hevent
    exact ⟨p, flags, next, rest ++ more, hdest, rfl, hnext⟩
  · obtain ⟨hsource, hdest, hprotects⟩ := h.hierarchy source dest hevent
    exact ⟨hsource, hdest, hprotects.mono (List.prefix_append _ _).isInfix⟩

/-- A call that binds nothing is guarded, whatever follows. -/
theorem Guarded.of_not_isBind {after : List Moment} (h : ¬ moment.event.call.IsBind) :
    Guarded host target moment after :=
  ⟨fun _ _ hevent => absurd ⟨_, _, false, by rw [hevent]⟩ h,
    fun _ _ hevent => absurd ⟨_, _, true, by rw [hevent]⟩ h⟩

theorem guarded_append (hx : InOrder (Guarded host target) xs)
    (hy : InOrder (Guarded host target) ys) : InOrder (Guarded host target) (xs ++ ys) :=
  hx.append (fun _ _ _ h => h.mono) hy

theorem guarded_singleton (h : ¬ moment.event.call.IsBind) :
    InOrder (Guarded host target) [moment] :=
  ⟨.of_not_isBind h, trivial⟩

theorem MadeReadonly.protects (h : MadeReadonly p xs) : Protects p xs := by
  cases h with
  | atOnce h => exact .atOnce (List.mem_singleton_self _) h
  | fallback hfirst hsecond hflags => exact .fallback List.infix_rfl hfirst hsecond hflags

theorem MadeReadonly.endsReadonly (h : MadeReadonly p xs) : EndsReadonly p xs := by
  cases h with
  | atOnce h => exact endsReadonly_singleton (by rw [h]) (by rw [h]; exact .attribute (by decide))
  | @fallback first second flags hfirst hsecond hflags =>
      refine ⟨[first], second, [], rfl, by rw [hsecond], ?_, by simp⟩
      rw [hsecond]
      exact setsReadonly_remountBindCall hflags

theorem MadeReadonly.guarded (h : MadeReadonly p xs) : InOrder (Guarded host target) xs := by
  cases h with
  | atOnce h => exact guarded_singleton (by rw [h]; exact KernelCall.not_isBind_setAttrAt)
  | fallback hfirst hsecond hflags =>
      refine ⟨.of_not_isBind ?_, guarded_singleton ?_⟩
      · rw [hfirst]
        exact KernelCall.not_isBind_setAttrAt
      · rw [hsecond]
        exact KernelCall.not_isBind_of_source

/-- The host's hierarchy, bound and then made read-only all the way down. -/
theorem HostBound.cgroupGuarded (h : HostBound host.paths.cgroupRoot target xs)
    (hreadonly : MadeReadonly target ys) : CgroupGuarded host target (xs ++ ys) := by
  cases h with
  | @mk first second flags hfirst hsecond =>
      refine ⟨hreadonly.endsReadonly.behind, ⟨fun source dest hevent => ?_, fun source dest hevent => ?_⟩,
        .of_not_isBind ?_, hreadonly.guarded⟩
      · simp [hfirst, Contract.bindFlags, MountFlags.bind, MountFlags.recursive] at hevent
      · rw [hfirst] at hevent
        obtain ⟨rfl, rfl⟩ : .at host.paths.cgroupRoot = source ∧ .at target = dest := by
          simpa using hevent
        exact ⟨rfl, rfl, hreadonly.protects.mono (List.suffix_cons _ _).isInfix⟩
      · rw [hsecond]
        exact KernelCall.not_isBind_of_source

theorem CgroupGuarded.readonly (h : CgroupGuarded host target xs)
    (hreadonly : MadeReadonly target ys) : CgroupGuarded host target (xs ++ ys) :=
  ⟨hreadonly.endsReadonly.behind, guarded_append h.binds hreadonly.guarded⟩

theorem CgroupGuarded.propagated (h : CgroupGuarded host target xs)
    (hcall : moment.event.call.IsPropagation) : CgroupGuarded host target (xs ++ [moment]) := by
  refine ⟨h.last.propagated hcall, guarded_append h.binds (guarded_singleton ?_)⟩
  obtain ⟨p, propagation, hcall⟩ := hcall
  rw [hcall]
  exact KernelCall.not_isBind_of_source

theorem SysfsGuarded.append {log : List Moment} {o : MountOptions}
    (h : SysfsGuarded host log target o xs) : SysfsGuarded host log target o (xs ++ ys) := by
  obtain ⟨first, bound, rest, rfl, hbound, hreadonly, hwritable⟩ := h
  have hmore : rest <:+: rest ++ ys := (List.prefix_append _ _).isInfix
  refine ⟨first, bound, rest ++ ys, by simp only [List.append_assoc], hbound,
    fun h => (hreadonly h).mono hmore, fun h table htable hlisted => ?_⟩
  exact (hwritable h table htable hlisted).mono hmore

end Calls

end ContainerMounts
