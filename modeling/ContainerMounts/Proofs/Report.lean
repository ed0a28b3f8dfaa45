/-
ContainerMounts.Proofs.Report — what the lines of a report stand for.

A report has one outcome for each operation, and the calls of the operation
are on record. Of both it can be asked whether they fit: `Backs` says which
calls an outcome needs, and `Told` which it needs as the outcome of an
operation.

An operation mounts first and finishes afterwards: with remounts, attributes
and the propagation that its options ask for (`Finishes`). None of that is a new
mount or attaches a tree, so calls that back an outcome still do when an
operation is finished (`Backs.finished`).
-/
import ContainerMounts.Executor
import ContainerMounts.Proofs.CgroupGuard
import ContainerMounts.Proofs.MountSurface
import ContainerMounts.Proofs.Paths

namespace ContainerMounts

open MountFlags (Apart callModes)

/-! ## Kinds of calls -/

namespace KernelCall

/-- A mount call that is neither a remount nor a change of propagation. -/
def isNewMount : KernelCall → Bool
  | .mount _ _ _ flags _ =>
      !flags.meets MountFlags.remount && !flags.meets MountFlags.propagationModes
  | _ => false

/-- The call attaches a copied tree. -/
def isAttach : KernelCall → Bool
  | .moveMount .. => true
  | _ => false

variable {source : Option Spot} {target : Spot} {fsType data : Option String} {flags : MountFlags}

theorem isNewMount_of_apart (h : Apart flags callModes) :
    isNewMount (.mount source target fsType flags data) = true := by
  have hremount : flags.meets MountFlags.remount = false := h.not_meets (by decide)
  have hpropagation : flags.meets MountFlags.propagationModes = false := h.not_meets (by decide)
  simp [isNewMount, hremount, hpropagation]

theorem isNewMount_bind (recursive : Bool) :
    isNewMount (.mount source target fsType (Contract.bindFlags recursive) data) = true := by
  cases recursive <;> rfl

theorem isNewMount_remount (h : flags.includes MountFlags.remount = true) :
    isNewMount (.mount source target fsType flags data) = false := by
  have hmeets : flags.meets MountFlags.remount = true := by
    rw [MountFlags.includes, beq_iff_eq] at h
    rw [MountFlags.meets, h]
    decide
  simp [isNewMount, hmeets]

end KernelCall

/-- Exactly one of the calls is such, and it was accepted. -/
def Once (p : KernelCall → Bool) (calls : List Moment) : Prop :=
  ∃ moment, calls.filter (fun moment => p moment.event.call) = [moment]
    ∧ moment.event.refusal = none

/-- A call behind the mount: a remount, an attribute call, or the propagation
that the options ask for. -/
inductive Finishes (o : MountOptions) : KernelCall → Prop where
  | remount {target : Spot} {flags : MountFlags} {data : Option String}
      (h : flags.includes MountFlags.remount = true) :
      Finishes o (.mount none target none flags data)
  | attributes (target : Path) : Finishes o (Contract.readonlyCall target)
  | propagation (target : Path) {propagation : Propagation}
      (h : o.propagation = some propagation) :
      Finishes o (.mount none (.at target) none propagation.flags none)

/-- All of them are. -/
def Finishing (o : MountOptions) (calls : List Moment) : Prop :=
  ∀ moment ∈ calls, Finishes o moment.event.call

/-! ## Calls and outcomes -/

/-- The call that provides control groups in this way. -/
inductive Provides (host : Host) (p : Path) : CgroupStrategy → KernelCall → Prop where
  | fresh (flags : MountFlags) (data : Option String) :
      Provides host p .fresh
        (.mount (some (Run.sourceName "cgroup2")) (.at p) (some "cgroup2") flags data)
  | bindHost :
      Provides host p .bindHost (.mount (some (.at host.paths.cgroupRoot)) (.at p) none
        (MountFlags.bind ||| MountFlags.recursive) none)
  | synthetic (flags : MountFlags) (data : Option String) :
      Provides host p .synthetic
        (.mount (some (Run.sourceName "tmpfs")) (.at p) (some "tmpfs") flags data)

/-- The call mounts nothing on the path: if it is an accepted mount call, it is
for a name below, a remount, or the propagation that the options ask for. -/
def MountsNothing (o : MountOptions) (p : Path) (moment : Moment) : Prop :=
  ∀ source target fsType flags data, moment.event = ⟨.mount source target fsType flags data, none⟩ →
    (∃ name, PlainName name ∧ target = .at (p.join ⟨name⟩))
      ∨ flags.includes MountFlags.remount = true
      ∨ ∃ propagation, o.propagation = some propagation ∧ flags = propagation.flags

/-- What was done, for an outcome that tells of something done on the path. -/
inductive Backs (host : Host) (o : MountOptions) (p : Path) : Outcome → List Moment → Prop where
  | idMapped {calls : List Moment} (h : Once KernelCall.isAttach calls) :
      Backs host o p .idMapped calls
  | mounted {outcome : Outcome} {calls : List Moment}
      (houtcome : outcome = .mounted ∨ outcome = .readonly ∨ outcome = .masked)
      (h : Once KernelCall.isNewMount calls) : Backs host o p outcome calls
  | hostSysfs {calls : List Moment} {moment : Moment} (hmem : moment ∈ calls)
      (h : moment.event = ⟨.mount (some (.at host.paths.sysfsRoot)) (.at p) none
        (MountFlags.bind ||| MountFlags.recursive) none, none⟩) : Backs host o p .hostSysfs calls
  /-- The last of the mounts on the path is the one that provides the control
  groups. -/
  | cgroup {strategy : CgroupStrategy} (before : List Moment) {after : List Moment}
      {moment : Moment} {call : KernelCall} (hcall : Provides host p strategy call)
      (hnew : call.isNewMount = true) (h : moment.event = ⟨call, none⟩)
      (hafter : ∀ later ∈ after, MountsNothing o p later) :
      Backs host o p (.cgroup strategy) (before ++ moment :: after)

/-- What was done for the operation: nothing where it was skipped or became a
symlink, and otherwise what the outcome tells, on the path that its target
leads to. -/
inductive Told (ex : Executor) (host : Host) (tree : FileTree) (op : MountOp) :
    Outcome → List Moment → Prop where
  | nothing {outcome : Outcome} (h : outcome = .skipped ∨ outcome = .symlinked) :
      Told ex host tree op outcome []
  | done {outcome : Outcome} {calls : List Moment} {r : ResolvedPath}
      (resolved : ex.rootfs.resolve tree op.target = .ok r)
      (h : Backs host op.options r.hostPath outcome calls) : Told ex host tree op outcome calls

section Calls

variable {host : Host} {o : MountOptions} {p : Path} {xs ys : List Moment} {moment : Moment}
  {outcome : Outcome} {strategy : CgroupStrategy} {call : KernelCall} {q : KernelCall → Bool}

theorem once_singleton (hcall : q moment.event.call = true) (h : moment.event.refusal = none) :
    Once q [moment] :=
  ⟨moment, by simp [hcall], h⟩

/-- None of the calls is such. -/
def Never (p : KernelCall → Bool) (calls : List Moment) : Prop :=
  ∀ moment ∈ calls, p moment.event.call = false

theorem Never.filter (h : Never q xs) : xs.filter (fun moment => q moment.event.call) = [] :=
  List.filter_eq_nil_iff.2 fun moment hmoment => by simp [h moment hmoment]

theorem Once.append (h : Once q xs) (hmore : Never q ys) : Once q (xs ++ ys) := by
  obtain ⟨moment, hfilter, hrefusal⟩ := h
  exact ⟨moment, by rw [List.filter_append, hfilter, hmore.filter, List.append_nil], hrefusal⟩

theorem Once.behind (hbefore : Never q xs) (h : Once q ys) : Once q (xs ++ ys) := by
  obtain ⟨moment, hfilter, hrefusal⟩ := h
  exact ⟨moment, by rw [List.filter_append, hbefore.filter, hfilter, List.nil_append], hrefusal⟩

theorem Finishes.not_newMount (h : Finishes o call) : call.isNewMount = false := by
  cases h with
  | remount h => exact KernelCall.isNewMount_remount h
  | attributes target => rfl
  | @propagation target propagation h =>
      obtain ⟨mode, recursive⟩ := propagation
      cases mode <;> cases recursive <;> rfl

theorem Finishes.not_attach (h : Finishes o call) : call.isAttach = false := by
  cases h <;> rfl

theorem Finishes.mountsNothing (h : Finishes o moment.event.call) : MountsNothing o p moment := by
  intro source target fsType flags data hevent
  rw [hevent] at h
  cases h with
  | remount h => exact .inr (.inl h)
  | propagation _ h => exact .inr (.inr ⟨_, h, rfl⟩)

theorem Provides.has_source {source : Option Spot} {target : Spot} {fsType data : Option String}
    {flags : MountFlags} (h : Provides host p strategy (.mount source target fsType flags data)) :
    source ≠ none := by
  cases h <;> simp

theorem finishes_remountBindCall {flags : MountFlags} :
    Finishes o (Contract.remountBindCall p flags) :=
  .remount (MountFlags.includes_or_right (by decide))

theorem MadeReadonly.finishing (h : MadeReadonly p xs) : Finishing o xs := by
  cases h with
  | @atOnce moment h =>
      refine List.forall_mem_singleton.2 ?_
      rw [h]
      exact .attributes p
  | @fallback first second flags hfirst hsecond hflags =>
      refine List.forall_mem_cons.2 ⟨?_, List.forall_mem_singleton.2 ?_⟩
      · rw [hfirst]
        exact .attributes p
      · rw [hsecond]
        exact finishes_remountBindCall

theorem HostBound.hostSysfs (h : HostBound host.paths.sysfsRoot p xs) :
    Backs host o p .hostSysfs xs := by
  cases h with
  | mk hfirst hsecond => exact .hostSysfs List.mem_cons_self hfirst

theorem HostBound.cgroup (h : HostBound host.paths.cgroupRoot p xs) :
    Backs host o p (.cgroup .bindHost) xs := by
  cases h with
  | @mk first second flags hfirst hsecond =>
      refine .cgroup [] .bindHost rfl hfirst (List.forall_mem_singleton.2 ?_)
      have hfinishes : Finishes o second.event.call := by
        rw [hsecond]
        exact finishes_remountBindCall
      exact hfinishes.mountsNothing

/-- Finishing an operation changes nothing about its outcome. -/
theorem Backs.finished (h : Backs host o p outcome xs) (hmore : Finishing o ys) :
    Backs host o p outcome (xs ++ ys) := by
  cases h with
  | idMapped h => exact .idMapped (h.append fun later hlater => (hmore later hlater).not_attach)
  | mounted houtcome h =>
      exact .mounted houtcome (h.append fun later hlater => (hmore later hlater).not_newMount)
  | hostSysfs hmem h => exact .hostSysfs (List.mem_append_left ys hmem) h
  | cgroup before hcall hnew h hafter =>
      rw [List.append_assoc, List.cons_append]
      exact .cgroup before hcall hnew h (List.forall_mem_append.2
        ⟨hafter, fun later hlater => (hmore later hlater).mountsNothing⟩)

/-- What was tried before does not matter where mounts are not counted. -/
theorem Backs.behind (h : Backs host o p outcome ys)
    (houtcome : outcome ∉ [.idMapped, .mounted, .readonly, .masked]) :
    Backs host o p outcome (xs ++ ys) := by
  cases h with
  | idMapped h => simp at houtcome
  | mounted hcounted h => rcases hcounted with rfl | rfl | rfl <;> simp at houtcome
  | hostSysfs hmem h => exact .hostSysfs (List.mem_append_right xs hmem) h
  | cgroup before hcall hnew h hafter =>
      rw [← List.append_assoc]
      exact .cgroup (xs ++ before) hcall hnew h hafter

end Calls

end ContainerMounts
