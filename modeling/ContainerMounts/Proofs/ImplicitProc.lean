/-
ContainerMounts.Proofs.ImplicitProc — asking for an implicit `/proc` changes
nothing else.

Two plans for one input are compared: one in which a `/proc` is mounted if none
is declared, and one without. The implicit `/proc` can always be planned, and no
declared mount goes where it goes, so a mount is refused in the one planning
exactly if it is refused in the other (`planMounts_requests`). What is left is
one operation at the head of the list that is sorted, which finds its place
behind the mounts on the root itself and before everything else
(`gainsProc_cons`).

Main statement: `build_implicitProc`.
-/
import ContainerMounts.Proofs.PlanOrder

namespace ContainerMounts

/-- The operation of a `/proc` that nobody declared. -/
def MountOp.implicitProc : MountOp where
  request :=
    { destination := "/proc", kind := .proc, source := some "proc",
      options := ["nosuid", "noexec", "nodev"] }
  target := Path.ofString "/proc"
  source := .virtual "proc"
  options := { suid := .denied, dev := .denied, exec := .denied }
  depth := 1
  phase := .mount

namespace PlanInput

variable {input : PlanInput} {tree : FileTree}

/-- A declared mount goes to `/proc`, however that is written. -/
def DeclaresProc (input : PlanInput) : Prop :=
  ∃ r ∈ input.mounts, Destination.normalize r.destination = .ok (Path.ofString "/proc")

/-- The input, with or without a `/proc` if none is declared. -/
def withProc (input : PlanInput) (enabled : Bool) : PlanInput :=
  { input with implicitProc := enabled }

/-! ## Planning with and without -/

theorem declaresProc_iff : input.declaresProc = true ↔ input.DeclaresProc := by
  rw [← Bool.not_eq_false, declaresProc_eq_false, DeclaresProc]
  push Not
  rfl

theorem requests_withProc (enabled : Bool) : (input.withProc enabled).requests
    = if enabled && !input.declaresProc then MountRequest.implicitProc :: input.mounts
      else input.mounts := rfl

theorem planMount_implicit :
    input.planMount tree MountRequest.implicitProc = .ok MountOp.implicitProc := rfl

/-- A request is planned in the same way whether a `/proc` is wanted or not. -/
theorem planMounts_withProc (enabled : Bool) (taken : List Path) (requests : List MountRequest) :
    (input.withProc enabled).planMounts tree taken requests
      = input.planMounts tree taken requests := by
  induction requests generalizing taken with
  | nil => rfl
  | cons r rest ih =>
      have hop : (input.withProc enabled).planMount tree r = input.planMount tree r := rfl
      simp only [planMounts, hop, ih]

/-- A request that can be planned goes in front of the others, unless its place
is taken. -/
theorem planMounts_cons {op : MountOp} {taken : List Path} {r : MountRequest}
    {rest : List MountRequest} (hop : input.planMount tree r = .ok op) :
    input.planMounts tree taken (r :: rest)
      = if op.target ∈ taken then .error (.duplicateDestination op.target.display)
        else (input.planMounts tree (op.target :: taken) rest).map (op :: ·) := by
  rw [planMounts, hop]
  by_cases htaken : op.target ∈ taken
  · simp [htaken, bind, Except.bind, throw, throwThe, MonadExceptOf.throw]
  · simp only [htaken, if_false, bind, Except.bind, pure, Except.pure]
    cases input.planMounts tree (op.target :: taken) rest <;> rfl

/-- Of the places that are taken only those matter that some request goes to. -/
theorem planMounts_congr {taken taken' : List Path} {requests : List MountRequest}
    (h : ∀ r ∈ requests, ∀ target, Destination.normalize r.destination = .ok target →
      (target ∈ taken ↔ target ∈ taken')) :
    input.planMounts tree taken requests = input.planMounts tree taken' requests := by
  induction requests generalizing taken taken' with
  | nil => rfl
  | cons r rest ih =>
      obtain ⟨hfirst, hrest⟩ := List.forall_mem_cons.1 h
      cases hop : input.planMount tree r with
      | error e =>
          rw [planMounts, planMounts, hop]
          rfl
      | ok op =>
          have htaken := hfirst op.target (planMount_target hop).1
          have hmore : input.planMounts tree (op.target :: taken) rest
              = input.planMounts tree (op.target :: taken') rest :=
            ih fun r' hr' target htarget => by
              rw [List.mem_cons, List.mem_cons, hrest r' hr' target htarget]
          rw [planMounts_cons hop, planMounts_cons hop, hmore]
          simp only [htaken]

/-- A wanted `/proc` is planned in front of the declared mounts, and those are
planned as they are without it. -/
theorem planMounts_requests (h : ¬ input.DeclaresProc) :
    (input.withProc true).planMounts tree [] (input.withProc true).requests
      = (input.planMounts tree [] input.mounts).map (MountOp.implicitProc :: ·) := by
  have hnone : input.declaresProc = false := by
    rwa [← Bool.not_eq_true, declaresProc_iff]
  have hfree : input.planMounts tree [Path.ofString "/proc"] input.mounts
      = input.planMounts tree [] input.mounts := by
    refine planMounts_congr fun r hr target htarget => ?_
    rw [List.mem_singleton]
    refine ⟨?_, fun hnil => absurd hnil List.not_mem_nil⟩
    rintro rfl
    exact absurd ⟨r, hr, htarget⟩ h
  rw [planMounts_withProc, requests_withProc, hnone]
  rw [Bool.not_false, Bool.and_self, if_pos rfl, planMounts_cons planMount_implicit,
    if_neg List.not_mem_nil]
  exact congrArg _ hfree

end PlanInput

/-! ## The place of the implicit `/proc` -/

namespace MountPlan

open PlanInput

variable {input : PlanInput} {tree : FileTree} {plan plan' : MountPlan}

/-- The second plan is the first with the implicit `/proc` put in, right behind
the mounts on the root itself. -/
def GainsProc (plan plan' : MountPlan) : Prop :=
  ∃ before after, plan.ops = before ++ after
    ∧ plan'.ops = before ++ MountOp.implicitProc :: after
    ∧ (∀ op ∈ before, op.phase = .mount ∧ op.target.depth = 0)
    ∧ ∀ op ∈ after, ¬ (op.phase = .mount ∧ op.target.depth = 0)

/-- The depth that the sort looks at is the number of names in the target. -/
theorem depth_of_mem {op : MountOp} (h : build tree input = .ok plan) (hop : op ∈ plan.ops) :
    op.depth = op.target.depth := by
  rcases planned_of_mem h hop with ⟨r, -, hmount⟩ | ⟨kind, path, hpath⟩
  · exact (planMount_target hmount).2.1
  · exact (planOverlay_target hpath).2.1

theorem not_precedes_iff {op : MountOp} :
    MountOp.implicitProc.precedes op = false ↔ op.phase = .mount ∧ op.depth = 0 := by
  rw [← Bool.not_eq_true, MountOp.precedes_iff]
  cases hphase : op.phase <;> simp [MountOp.implicitProc, Phase.rank]

/-- An operation at the head of the list goes behind those that have to come
before it. -/
theorem gainsProc_cons {jobs : List MountOp} (h : ∀ op ∈ jobs, op.depth = op.target.depth) :
    GainsProc ⟨jobs.mergeSort MountOp.precedes⟩
      ⟨(MountOp.implicitProc :: jobs).mergeSort MountOp.precedes⟩ := by
  obtain ⟨before, after, hwith, hwithout, hbefore⟩ :=
    List.mergeSort_cons MountOp.precedes_trans MountOp.precedes_total MountOp.implicitProc jobs
  have hjob : ∀ op ∈ before ++ after, op.depth = op.target.depth := fun op hop =>
    h op (List.mem_mergeSort.1 (hwithout ▸ hop))
  have hsorted : (before ++ MountOp.implicitProc :: after).Pairwise
      fun a b => a.precedes b = true := by
    rw [← hwith]
    exact List.pairwise_mergeSort MountOp.precedes_trans MountOp.precedes_total _
  obtain ⟨-, hbehind, -⟩ := List.pairwise_append.1 hsorted
  refine ⟨before, after, hwithout, hwith, fun op hop => ?_, fun op hop => ?_⟩
  · rw [← hjob op (List.mem_append_left _ hop)]
    exact not_precedes_iff.1 (by simpa using hbefore op hop)
  · rw [← hjob op (List.mem_append_right _ hop), ← not_precedes_iff, Bool.not_eq_false]
    exact (List.pairwise_cons.1 hbehind).1 op hop

/-- **An implicit `/proc` is conservative.** Whether one is wanted or not, a plan
is refused for the same reason. If it is not refused and some declared mount goes
to `/proc`, the plans are equal; otherwise the one plan is the other with a
`/proc` put in, behind the mounts on the root itself and before everything
else. -/
theorem build_implicitProc (tree : FileTree) (input : PlanInput) :
    match build tree (input.withProc false), build tree (input.withProc true) with
    | .error e, .error e' => e = e'
    | .ok plan, .ok plan' =>
        (input.DeclaresProc → plan' = plan) ∧ (¬ input.DeclaresProc → plan.GainsProc plan')
    | _, _ => False := by
  have hoverlays (enabled : Bool) : (input.withProc enabled).planOverlays = input.planOverlays :=
    rfl
  have hoff : (input.withProc false).planMounts tree [] (input.withProc false).requests
      = input.planMounts tree [] input.mounts := planMounts_withProc false [] input.mounts
  by_cases hdeclared : input.DeclaresProc
  · have hon : (input.withProc true).planMounts tree [] (input.withProc true).requests
        = input.planMounts tree [] input.mounts := by
      rw [planMounts_withProc, requests_withProc, declaresProc_iff.2 hdeclared]
      rfl
    have hsame : build tree (input.withProc true) = build tree (input.withProc false) := by
      rw [build, build, hoff, hon, hoverlays, hoverlays]
    rw [hsame]
    cases build tree (input.withProc false) with
    | error e => rfl
    | ok plan => exact ⟨fun _ => rfl, fun hnot => absurd hdeclared hnot⟩
  · rw [build, build, hoff, planMounts_requests hdeclared, hoverlays, hoverlays]
    cases hmounts : input.planMounts tree [] input.mounts with
    | error e => rfl
    | ok mounts =>
        cases hplanned : input.planOverlays with
        | error e => rfl
        | ok overlays =>
            have hplan : build tree (input.withProc false)
                = .ok ⟨(mounts ++ overlays).mergeSort MountOp.precedes⟩ := by
              rw [build, hoff, hmounts, hoverlays, hplanned]
              rfl
            refine ⟨fun hdeclares => absurd hdeclares hdeclared, fun _ => gainsProc_cons ?_⟩
            exact fun op hop => depth_of_mem hplan (List.mem_mergeSort.2 hop)

/-- A tmpfs below `/proc`, declared before one on the root itself, and a path to be
protected. -/
def rootedInput : PlanInput where
  mounts := [{ destination := "proc/./bus", kind := .tmpfs },
    { destination := "/proc/..", kind := .tmpfs }]
  readonlyPaths := ["/proc//sys"]

theorem build_implicitProc_rooted :
    ¬ rootedInput.DeclaresProc
      ∧ ∃ plan plan', build noFiles (rootedInput.withProc false) = .ok plan
        ∧ build noFiles (rootedInput.withProc true) = .ok plan' ∧ plan.GainsProc plan' := by
  have hnone : ¬ rootedInput.DeclaresProc := by
    rw [← declaresProc_iff]
    decide +kernel
  have hplannable : (rootedInput.withProc false).Plannable noFiles := {
    mounts := List.forall_mem_cons.2 ⟨⟨_, rfl⟩, List.forall_mem_singleton.2 ⟨_, rfl⟩⟩
    distinct := List.pairwise_pair.2 fun target htarget => by
      obtain rfl := Except.ok.inj htarget
      decide
    readonly := List.forall_mem_singleton.2 ⟨_, rfl⟩
    masked := by simp [rootedInput, withProc] }
  obtain ⟨plan, hoff⟩ := build_isOk.2 hplannable
  have hboth := build_implicitProc noFiles rootedInput
  rw [hoff] at hboth
  cases hon : build noFiles (rootedInput.withProc true) with
  | error e => simp [hon] at hboth
  | ok plan' =>
      rw [hon] at hboth
      exact ⟨hnone, plan, plan', hoff, rfl, hboth.2 hnone⟩

end MountPlan

end ContainerMounts
