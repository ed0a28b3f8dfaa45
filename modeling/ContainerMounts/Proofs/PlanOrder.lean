/-
ContainerMounts.Proofs.PlanOrder — what a plan holds, and in which order.

Each wanted mount and each path to be protected becomes one operation, and
the operations are put in order by a sort that looks at their phase and at
the number of names in their target. `PlanInput.Plannable` says for which
input that works, and `PlanInput.Planned` which operations there are before
the sort, in four groups. `MountPlan.Orders` is what the sort makes of
them: none is lost, none is doubled, mounts come before overlays, a path
before the paths below it, and operations that the sort cannot tell apart
stay as they were.

An ancestor comes first because destinations have one form: `/` and plain
names, so that a proper ancestor has fewer names (`depth_lt_of_isAbove`).
-/
import ContainerMounts.Proofs.Paths
import ContainerMounts.Proofs.Planning
import Mathlib.Data.List.Forall2

namespace ContainerMounts

/-! ## Destinations in their one form -/

namespace Path

/-- The path is a proper ancestor of the other one. -/
def IsAbove (p q : Path) : Prop := q.under p = true ∧ p.same q = false

variable {xs ys : List Name}

theorem depth_ofNames (h : ∀ n ∈ xs, PlainName n) : (ofNames xs).depth = xs.length := by
  rw [depth, components_ofNames h]
  simp [List.countP_map, Function.comp_def]

theorem depth_lt_of_isAbove (hxs : ∀ n ∈ xs, PlainName n) (hys : ∀ n ∈ ys, PlainName n)
    (h : (ofNames xs).IsAbove (ofNames ys)) : (ofNames xs).depth < (ofNames ys).depth := by
  obtain ⟨hunder, hsame⟩ := h
  rw [under_iff, components_ofNames hxs, components_ofNames hys] at hunder
  rw [depth_ofNames hxs, depth_ofNames hys]
  have hle : xs.length ≤ ys.length := by simpa using hunder.length_le
  refine Nat.lt_of_le_of_ne hle fun heq => ?_
  have hcomponents := hunder.eq_of_length (by simp [heq])
  rw [← components_ofNames hxs, ← components_ofNames hys] at hcomponents
  simp [same, hcomponents] at hsame

end Path

namespace Destination

theorem collapse?_plain {stack names : List Name} {steps : List Step}
    (hstack : ∀ n ∈ stack, PlainName n) (hsteps : ∀ n, Step.down n ∈ steps → PlainName n)
    (h : collapse? stack steps = some names) : ∀ n ∈ names, PlainName n := by
  fun_induction collapse? stack steps with
  | case1 stack =>
      obtain rfl := Option.some.inj h
      exact hstack
  | case2 rest => simp at h
  | case3 name stack rest ih =>
      have hkept : ∀ n ∈ (name :: stack).dropLast, PlainName n :=
        fun n hn => hstack n (List.dropLast_subset _ hn)
      exact ih hkept (fun n hn => hsteps n (by simp [hn])) h
  | case4 stack name rest ih =>
      have hmore : ∀ n ∈ stack ++ [name], PlainName n :=
        List.forall_mem_append.2 ⟨hstack, List.forall_mem_singleton.2 (hsteps name (by simp))⟩
      exact ih hmore (fun n hn => hsteps n (by simp [hn])) h

/-- A destination in its one form is `/` and plain names. -/
theorem normalize_eq_ok {text : String} {p : Path} (h : normalize text = .ok p) :
    ∃ names, (∀ n ∈ names, PlainName n) ∧ p = Path.ofNames names := by
  unfold normalize at h
  split at h
  · rename_i names hnames
    obtain rfl := Except.ok.inj h
    have hplain := collapse?_plain (by simp) (fun _ hn => Step.plain_of_mem_steps hn) hnames
    exact ⟨names, hplain, rfl⟩
  · simp at h

end Destination

/-! ## Which input can be planned -/

section Lists

variable {α β ε : Type}

theorem exists_forall₂ {R : α → β → Prop} {xs : List α} :
    (∃ ys, List.Forall₂ R xs ys) ↔ ∀ x ∈ xs, ∃ y, R x y := by
  induction xs with
  | nil => simp
  | cons x rest ih => simp [List.forall₂_cons_left_iff, ← ih]

/-- What the results of a traversal have in pairs is what their origins have. -/
theorem pairwise_iff_of_forall₂ {R : α → β → Prop} {p : α → α → Prop} {q : β → β → Prop}
    {xs : List α} {ys : List β} (h : List.Forall₂ R xs ys)
    (hpq : ∀ x y x' y', R x y → R x' y' → (p x x' ↔ q y y')) :
    xs.Pairwise p ↔ ys.Pairwise q := by
  induction h with
  | nil => simp
  | @cons x y xs ys hxy hrest ih =>
      have hfirst : (∀ x' ∈ xs, p x x') ↔ ∀ y' ∈ ys, q y y' := by
        clear ih
        induction hrest with
        | nil => simp
        | @cons x' y' _ _ hxy' _ ih => simp [hpq x y x' y' hxy hxy', ih]
      simp [hfirst, ih]

end Lists

namespace PlanInput

variable {input : PlanInput} {tree : FileTree} {op : MountOp}

/-- A `/proc` is wanted beside the declared mounts, none of which goes
there. -/
def WantsProc (input : PlanInput) : Prop :=
  input.implicitProc = true
    ∧ ∀ r ∈ input.mounts, Destination.normalize r.destination ≠ .ok (Path.ofString "/proc")

/-- A plan can be made: every declared mount can be planned, no two of them
have one destination, and every path to be protected has one form. -/
structure Plannable (input : PlanInput) (tree : FileTree) : Prop where
  mounts : ∀ r ∈ input.mounts, ∃ op, input.planMount tree r = .ok op
  distinct : input.mounts.Pairwise fun r r' =>
    ∀ target, Destination.normalize r.destination = .ok target →
      Destination.normalize r'.destination ≠ .ok target
  readonly : ∀ path ∈ input.readonlyPaths, ∃ target, Destination.normalize path = .ok target
  masked : ∀ path ∈ input.maskedPaths, ∃ target, Destination.normalize path = .ok target

/-- What is to be done, each of it planned once: the implicit `/proc` if it is
wanted, the declared mounts, and the paths to be protected. -/
structure Planned (input : PlanInput) (tree : FileTree)
    (implicit mounts readonly masked : List MountOp) : Prop where
  implicit : (input.WantsProc
      ∧ ∃ op, input.planMount tree MountRequest.implicitProc = .ok op ∧ implicit = [op])
    ∨ (¬ input.WantsProc ∧ implicit = [])
  mounts : List.Forall₂ (fun r op => input.planMount tree r = .ok op) input.mounts mounts
  readonly : List.Forall₂ (fun path op => planOverlay .readonly path = .ok op)
    input.readonlyPaths readonly
  masked : List.Forall₂ (fun path op => planOverlay .masked path = .ok op)
    input.maskedPaths masked

/-! ## What is planned -/

theorem planOverlay_isOk (kind : OverlayKind) (path : String) :
    (∃ op, planOverlay kind path = .ok op) ↔ ∃ target, Destination.normalize path = .ok target := by
  constructor
  · rintro ⟨op, h⟩
    exact ⟨op.target, (planOverlay_target h).1⟩
  · rintro ⟨target, h⟩
    exact ⟨_, planOverlay_iff.2 ⟨target, h, rfl⟩⟩

/-- The implicit `/proc` can always be planned. -/
theorem planMount_implicitProc (input : PlanInput) (tree : FileTree) :
    ∃ op, input.planMount tree MountRequest.implicitProc = .ok op
      ∧ op.target = Path.ofString "/proc" :=
  ⟨_, rfl, rfl⟩

theorem declaresProc_eq_false : input.declaresProc = false ↔
    ∀ r ∈ input.mounts, Destination.normalize r.destination ≠ .ok (Path.ofString "/proc") := by
  rw [declaresProc, List.any_eq_false]
  refine forall₂_congr fun r _ => ?_
  cases Destination.normalize r.destination <;> simp

theorem planRequests_eq_ok {ops : List MountOp} :
    List.Forall₂ (fun r op => input.planMount tree r = .ok op) input.requests ops ↔
      ∃ implicit mounts, ops = implicit ++ mounts
        ∧ ((input.WantsProc
            ∧ ∃ op, input.planMount tree MountRequest.implicitProc = .ok op ∧ implicit = [op])
          ∨ (¬ input.WantsProc ∧ implicit = []))
        ∧ List.Forall₂ (fun r op => input.planMount tree r = .ok op) input.mounts mounts := by
  have hwants : (input.implicitProc && !input.declaresProc) = true ↔ input.WantsProc := by
    simp [WantsProc, declaresProc_eq_false]
  rw [requests]
  by_cases hproc : input.WantsProc
  · rw [if_pos (hwants.2 hproc), List.forall₂_cons_left_iff]
    constructor
    · rintro ⟨op, mounts, hop, hmounts, rfl⟩
      exact ⟨[op], mounts, rfl, .inl ⟨hproc, op, hop, rfl⟩, hmounts⟩
    · rintro ⟨_, mounts, rfl, ⟨-, op, hop, rfl⟩ | ⟨hnot, -⟩, hmounts⟩
      · exact ⟨op, mounts, hop, hmounts, rfl⟩
      · exact absurd hproc hnot
  · rw [if_neg (hwants.not.2 hproc)]
    constructor
    · exact fun hmounts => ⟨[], ops, rfl, .inr ⟨hproc, rfl⟩, hmounts⟩
    · rintro ⟨_, mounts, rfl, ⟨hwanted, -⟩ | ⟨-, rfl⟩, hmounts⟩
      · exact absurd hwanted hproc
      · exact hmounts

end PlanInput

open PlanInput

variable {input : PlanInput} {tree : FileTree} {plan : MountPlan}
variable {implicit mounts readonly masked : List MountOp}

namespace PlanInput

/-- The declared mounts have distinct destinations, and that sets them apart
from an implicit `/proc` as well. -/
theorem Planned.distinct_iff (h : input.Planned tree implicit mounts readonly masked) :
    (implicit ++ mounts).Pairwise (fun a b => a.target ≠ b.target) ↔
      input.mounts.Pairwise fun r r' =>
        ∀ target, Destination.normalize r.destination = .ok target →
          Destination.normalize r'.destination ≠ .ok target := by
  have hmounts := pairwise_iff_of_forall₂ (p := fun r r' =>
    ∀ target, Destination.normalize r.destination = .ok target →
      Destination.normalize r'.destination ≠ .ok target)
    (q := fun a b => a.target ≠ b.target) h.mounts
    fun r a r' b ha hb => by simp [(planMount_target ha).1, (planMount_target hb).1, eq_comm]
  rw [hmounts]
  rcases h.implicit with ⟨hwants, op, hop, rfl⟩ | ⟨-, rfl⟩
  · have hapart : ∀ b ∈ mounts, op.target ≠ b.target := by
      intro b hb heq
      obtain ⟨r, hr, hplanned⟩ := exists_of_mem_right h.mounts hb
      refine hwants.2 r hr ?_
      obtain ⟨proc, hproc, hprocTarget⟩ := planMount_implicitProc input tree
      obtain rfl : proc = op := Except.ok.inj (hproc.symm.trans hop)
      rw [(planMount_target hplanned).1, ← heq, hprocTarget]
    simpa [List.pairwise_cons] using fun _ => hapart
  · simp

end PlanInput

namespace MountPlan

/-- A plan is what was planned, put in order. -/
theorem build_eq_ok : build tree input = .ok plan ↔
    ∃ implicit mounts readonly masked, input.Planned tree implicit mounts readonly masked
      ∧ (implicit ++ mounts).Pairwise (fun a b => a.target ≠ b.target)
      ∧ plan.ops = (implicit ++ mounts ++ readonly ++ masked).mergeSort MountOp.precedes := by
  rw [build]
  simp only [bind_eq_ok, planMounts_eq_ok, planRequests_eq_ok, planOverlays_eq_ok]
  constructor
  · rintro ⟨_, ⟨⟨implicit, mounts, rfl, himplicit, hmounts⟩, hdistinct, -⟩, _,
      ⟨readonly, masked, rfl, hreadonly, hmasked⟩, heq⟩
    obtain rfl := Except.ok.inj heq
    exact ⟨implicit, mounts, readonly, masked, ⟨himplicit, hmounts, hreadonly, hmasked⟩, hdistinct,
      by simp only [List.append_assoc]⟩
  · rintro ⟨implicit, mounts, readonly, masked, hplanned, hdistinct, hops⟩
    refine ⟨_, ⟨⟨implicit, mounts, rfl, hplanned.implicit, hplanned.mounts⟩, hdistinct, by simp⟩, _,
      ⟨readonly, masked, rfl, hplanned.readonly, hplanned.masked⟩, ?_⟩
    simp only [pure, Except.pure, Except.ok.injEq]
    cases plan
    simp_all

/-- A plan can be made of exactly the input that is plannable. -/
theorem build_isOk : (∃ plan, build tree input = .ok plan) ↔ input.Plannable tree := by
  constructor
  · rintro ⟨plan, h⟩
    obtain ⟨implicit, mounts, readonly, masked, hplanned, hdistinct, -⟩ := build_eq_ok.1 h
    exact {
      mounts := exists_forall₂.1 ⟨_, hplanned.mounts⟩
      distinct := hplanned.distinct_iff.1 hdistinct
      readonly := by simpa only [planOverlay_isOk] using exists_forall₂.1 ⟨_, hplanned.readonly⟩
      masked := by simpa only [planOverlay_isOk] using exists_forall₂.1 ⟨_, hplanned.masked⟩ }
  · intro h
    obtain ⟨mounts, hmounts⟩ := exists_forall₂.2 h.mounts
    obtain ⟨readonly, hreadonly⟩ := exists_forall₂.2 fun path hpath =>
      (planOverlay_isOk .readonly path).2 (h.readonly path hpath)
    obtain ⟨masked, hmasked⟩ := exists_forall₂.2 fun path hpath =>
      (planOverlay_isOk .masked path).2 (h.masked path hpath)
    obtain ⟨proc, hproc, -⟩ := planMount_implicitProc input tree
    obtain ⟨implicit, himplicit⟩ : ∃ implicit, (input.WantsProc
        ∧ ∃ op, input.planMount tree MountRequest.implicitProc = .ok op ∧ implicit = [op])
        ∨ (¬ input.WantsProc ∧ implicit = []) := by
      by_cases hwants : input.WantsProc
      · exact ⟨[proc], .inl ⟨hwants, proc, hproc, rfl⟩⟩
      · exact ⟨[], .inr ⟨hwants, rfl⟩⟩
    have hplanned : input.Planned tree implicit mounts readonly masked :=
      ⟨himplicit, hmounts, hreadonly, hmasked⟩
    exact ⟨⟨_⟩, build_eq_ok.2 ⟨implicit, mounts, readonly, masked, hplanned,
      hplanned.distinct_iff.2 h.distinct, rfl⟩⟩

end MountPlan

/-! ## The order -/

namespace MountOp

theorem precedes_iff {a b : MountOp} : a.precedes b = true ↔
    a.phase.rank < b.phase.rank ∨ a.phase.rank = b.phase.rank ∧ a.depth ≤ b.depth := by
  simp [precedes]

theorem precedes_trans (a b c : MountOp) (hab : a.precedes b = true)
    (hbc : b.precedes c = true) : a.precedes c = true := by
  rw [precedes_iff] at hab hbc ⊢
  omega

theorem precedes_total (a b : MountOp) : (a.precedes b || b.precedes a) = true := by
  rw [Bool.or_eq_true, precedes_iff, precedes_iff]
  omega

end MountOp

/-- A stable sort keeps a part of the list that is in order already. -/
theorem filter_mergeSort {α : Type} {le : α → α → Bool} {l : List α} {p : α → Bool}
    (htrans : ∀ a b c, le a b = true → le b c = true → le a c = true)
    (htotal : ∀ a b, (le a b || le b a) = true)
    (h : (l.filter p).Pairwise fun a b => le a b = true) :
    (l.mergeSort le).filter p = l.filter p := by
  have hkept : (l.filter p).Sublist (l.mergeSort le) :=
    List.sublist_mergeSort htrans htotal h List.filter_sublist
  have hsub : (l.filter p).Sublist ((l.mergeSort le).filter p) := by
    simpa [List.filter_filter] using hkept.filter p
  have hlength : (l.filter p).length = ((l.mergeSort le).filter p).length :=
    ((List.mergeSort_perm l le).filter p).length_eq.symm
  exact (hsub.eq_of_length hlength).symm

namespace MountPlan

/-- The plan holds exactly these jobs, in the order in which they can be
carried out. What is said of `a` and `b` is said of every operation `a` of
the plan and every later `b`. -/
structure Orders (plan : MountPlan) (jobs : List MountOp) : Prop where
  perm : plan.ops.Perm jobs
  /-- No mount comes after an overlay. -/
  phases : plan.ops.Pairwise fun a b => a.phase = .overlay → b.phase = .overlay
  depths : plan.ops.Pairwise fun a b => a.phase = b.phase → a.target.depth ≤ b.target.depth
  /-- Nothing comes after what lies below it. -/
  ancestors : plan.ops.Pairwise fun a b => a.phase = b.phase → ¬ b.target.IsAbove a.target
  /-- Operations of one phase and depth stand as among the jobs. -/
  stable : ∀ phase depth,
    plan.ops.filter (fun op => op.phase = phase ∧ op.target.depth = depth)
      = jobs.filter (fun op => op.phase = phase ∧ op.target.depth = depth)
  /-- A path is masked after it is protected against writing. -/
  maskedLast : plan.ops.Pairwise fun a b =>
    a.target = b.target → a.overlay = some .masked → b.overlay ≠ some .readonly
  /-- No two mounts go to one place. -/
  distinct : plan.ops.Pairwise fun a b =>
    a.phase = .mount → b.phase = .mount → a.target ≠ b.target

end MountPlan

namespace PlanInput

variable {op : MountOp}

theorem Planned.of_mem_mounts (h : input.Planned tree implicit mounts readonly masked)
    (hop : op ∈ implicit ++ mounts) : ∃ r, input.planMount tree r = .ok op := by
  rcases List.mem_append.1 hop with hop | hop
  · rcases h.implicit with ⟨-, proc, hproc, rfl⟩ | ⟨-, rfl⟩
    · obtain rfl := List.mem_singleton.1 hop
      exact ⟨_, hproc⟩
    · simp at hop
  · obtain ⟨r, -, hr⟩ := exists_of_mem_right h.mounts hop
    exact ⟨r, hr⟩

theorem Planned.of_mem_readonly (h : input.Planned tree implicit mounts readonly masked)
    (hop : op ∈ readonly) : ∃ path, planOverlay .readonly path = .ok op := by
  obtain ⟨path, -, hpath⟩ := exists_of_mem_right h.readonly hop
  exact ⟨path, hpath⟩

theorem Planned.of_mem_masked (h : input.Planned tree implicit mounts readonly masked)
    (hop : op ∈ masked) : ∃ path, planOverlay .masked path = .ok op := by
  obtain ⟨path, -, hpath⟩ := exists_of_mem_right h.masked hop
  exact ⟨path, hpath⟩

/-- Every target has its one form, and the depth that the sort looks at is
its number of names. -/
theorem Planned.target_plain (h : input.Planned tree implicit mounts readonly masked)
    (hop : op ∈ implicit ++ mounts ++ readonly ++ masked) :
    op.depth = op.target.depth ∧ ∃ names, (∀ n ∈ names, PlainName n)
      ∧ op.target = Path.ofNames names := by
  have hshape : ∃ text, Destination.normalize text = .ok op.target
      ∧ op.depth = op.target.depth := by
    rcases List.mem_append.1 hop with hop | hmasked
    · rcases List.mem_append.1 hop with hmount | hreadonly
      · obtain ⟨r, hr⟩ := h.of_mem_mounts hmount
        exact ⟨_, (planMount_target hr).1, (planMount_target hr).2.1⟩
      · obtain ⟨path, hpath⟩ := h.of_mem_readonly hreadonly
        exact ⟨_, (planOverlay_target hpath).1, (planOverlay_target hpath).2.1⟩
    · obtain ⟨path, hpath⟩ := h.of_mem_masked hmasked
      exact ⟨_, (planOverlay_target hpath).1, (planOverlay_target hpath).2.1⟩
  obtain ⟨text, htext, hdepth⟩ := hshape
  exact ⟨hdepth, Destination.normalize_eq_ok htext⟩

theorem Planned.phase_mounts (h : input.Planned tree implicit mounts readonly masked)
    (hop : op ∈ implicit ++ mounts) : op.phase = .mount ∧ op.overlay = none := by
  obtain ⟨r, hr⟩ := h.of_mem_mounts hop
  exact ⟨(planMount_target hr).2.2, (planMount_eq_ok hr).2.1⟩

theorem Planned.phase_readonly (h : input.Planned tree implicit mounts readonly masked)
    (hop : op ∈ readonly) : op.phase = .overlay ∧ op.overlay = some .readonly := by
  obtain ⟨path, hpath⟩ := h.of_mem_readonly hop
  exact ⟨(planOverlay_target hpath).2.2, (planOverlay_eq_ok hpath).1⟩

theorem Planned.phase_masked (h : input.Planned tree implicit mounts readonly masked)
    (hop : op ∈ masked) : op.phase = .overlay ∧ op.overlay = some .masked := by
  obtain ⟨path, hpath⟩ := h.of_mem_masked hop
  exact ⟨(planOverlay_target hpath).2.2, (planOverlay_eq_ok hpath).1⟩

/-- Among the jobs only mounts can share a phase with a mount, so that distinct
mounts are enough. -/
theorem Planned.distinct (h : input.Planned tree implicit mounts readonly masked)
    (hdistinct : (implicit ++ mounts).Pairwise fun a b => a.target ≠ b.target) :
    (implicit ++ mounts ++ readonly ++ masked).Pairwise fun a b =>
      a.phase = .mount → b.phase = .mount → a.target ≠ b.target := by
  have hoverlay : ∀ b ∈ readonly ++ masked, b.phase = .overlay := by
    intro b hb
    rcases List.mem_append.1 hb with hb | hb
    · exact (h.phase_readonly hb).1
    · exact (h.phase_masked hb).1
  rw [List.append_assoc, List.pairwise_append]
  refine ⟨hdistinct.imp fun hne _ _ => hne, ?_, fun a _ b hb _ hmount => ?_⟩
  · exact List.pairwise_of_forall_mem_list fun a ha b hb hmount => by simp [hoverlay a ha] at hmount
  · simp [hoverlay b hb] at hmount

/-- The jobs are listed with the masked paths behind those to be protected
against writing. -/
theorem Planned.maskedLast (h : input.Planned tree implicit mounts readonly masked) :
    (implicit ++ mounts ++ readonly ++ masked).Pairwise fun a b =>
      a.overlay = some .masked → b.overlay ≠ some .readonly := by
  refine List.pairwise_append.2 ⟨?_, ?_, fun a _ b hb _ => by simp [(h.phase_masked hb).2]⟩
  · refine List.pairwise_of_forall_mem_list fun a ha b _ hmasked => ?_
    rcases List.mem_append.1 ha with ha | ha
    · simp [(h.phase_mounts ha).2] at hmasked
    · simp [(h.phase_readonly ha).2] at hmasked
  · exact List.pairwise_of_forall_mem_list fun a _ b hb _ => by simp [(h.phase_masked hb).2]

theorem Planned.phase_of_overlay (h : input.Planned tree implicit mounts readonly masked)
    (hop : op ∈ implicit ++ mounts ++ readonly ++ masked) (hoverlay : op.overlay ≠ none) :
    op.phase = .overlay := by
  rcases List.mem_append.1 hop with hop | hmasked
  · rcases List.mem_append.1 hop with hmount | hreadonly
    · exact absurd (h.phase_mounts hmount).2 hoverlay
    · exact (h.phase_readonly hreadonly).1
  · exact (h.phase_masked hmasked).1

/-- Sorting what was planned puts it in order. -/
theorem Planned.orders (h : input.Planned tree implicit mounts readonly masked)
    (hdistinct : (implicit ++ mounts).Pairwise fun a b => a.target ≠ b.target)
    (hops : plan.ops = (implicit ++ mounts ++ readonly ++ masked).mergeSort MountOp.precedes) :
    plan.Orders (implicit ++ mounts ++ readonly ++ masked) := by
  set jobs := implicit ++ mounts ++ readonly ++ masked with hjobs
  have hperm : plan.ops.Perm jobs := hops ▸ List.mergeSort_perm jobs _
  have hsorted : plan.ops.Pairwise fun a b => a.precedes b = true := by
    rw [hops]
    exact List.pairwise_mergeSort MountOp.precedes_trans MountOp.precedes_total jobs
  have hshape := fun op (hop : op ∈ plan.ops) => h.target_plain (hjobs ▸ hperm.mem_iff.1 hop)
  have hdepths : plan.ops.Pairwise fun a b =>
      a.phase = b.phase → a.target.depth ≤ b.target.depth := by
    refine hsorted.imp_of_mem fun {a b} ha hb hprecedes hphase => ?_
    rw [MountOp.precedes_iff, hphase, (hshape a ha).1, (hshape b hb).1] at hprecedes
    omega
  have hstable : ∀ phase depth,
      plan.ops.filter (fun op => op.phase = phase ∧ op.target.depth = depth)
        = jobs.filter (fun op => op.phase = phase ∧ op.target.depth = depth) := by
    intro phase depth
    rw [hops]
    refine filter_mergeSort MountOp.precedes_trans MountOp.precedes_total ?_
    refine List.pairwise_of_forall_mem_list fun a ha b hb => ?_
    obtain ⟨ha, hphase, hdepth⟩ : a ∈ jobs ∧ a.phase = phase ∧ a.target.depth = depth := by
      simpa using ha
    obtain ⟨hb, hphase', hdepth'⟩ : b ∈ jobs ∧ b.phase = phase ∧ b.target.depth = depth := by
      simpa using hb
    rw [MountOp.precedes_iff, (h.target_plain ha).1, (h.target_plain hb).1]
    exact .inr ⟨by rw [hphase, hphase'], by omega⟩
  exact {
    perm := hperm
    phases := hsorted.imp fun {a b} hprecedes hphase => by
      rw [MountOp.precedes_iff, hphase] at hprecedes
      cases hb : b.phase with
      | mount => simp [hb, Phase.rank] at hprecedes
      | overlay => rfl
    depths := hdepths
    ancestors := hdepths.imp_of_mem fun {a b} ha hb hle hphase habove => by
      obtain ⟨-, xs, hxs, hax⟩ := hshape a ha
      obtain ⟨-, ys, hys, hby⟩ := hshape b hb
      have hlt := Path.depth_lt_of_isAbove hys hxs (by rwa [← hax, ← hby])
      rw [← hax, ← hby] at hlt
      exact absurd (hle hphase) (Nat.not_le.2 hlt)
    stable := hstable
    maskedLast := by
      -- Both are overlays of one depth, so the plan lists them as the jobs do.
      refine List.pairwise_iff_forall_sublist.2 fun {a b} hsub htarget hmasked hreadonly => ?_
      have hphase : ∀ op ∈ [a, b], op.overlay ≠ none → op.phase = .overlay := fun op hop =>
        h.phase_of_overlay (hperm.mem_iff.1 (hsub.subset hop))
      have ha := hphase a (by simp) (by simp [hmasked])
      have hb := hphase b (by simp) (by simp [hreadonly])
      have hfiltered := hsub.filter
        fun op => op.phase = .overlay ∧ op.target.depth = b.target.depth
      rw [hstable] at hfiltered
      have hab : [a, b].Sublist jobs := by
        have hboth := hfiltered.trans List.filter_sublist
        simpa [ha, hb, htarget] using hboth
      exact List.pairwise_iff_forall_sublist.1 h.maskedLast hab hmasked hreadonly
    distinct := (hperm.pairwise_iff fun hne hb ha => (hne ha hb).symm).2 (h.distinct hdistinct) }

end PlanInput

namespace MountPlan

/-- **A plan can be made of exactly the input that is plannable**: every
declared mount can be planned, no two of them go to one place, and every
path to be protected has one form. **It then holds** the implicit `/proc`,
the declared mounts and the protected paths, each planned once, in an order
in which nothing is hidden by what comes later. -/
theorem build_orders (tree : FileTree) (input : PlanInput) :
    ((∃ plan, build tree input = .ok plan) ↔ input.Plannable tree)
      ∧ ∀ plan, build tree input = .ok plan →
        ∃ implicit mounts readonly masked, input.Planned tree implicit mounts readonly masked
          ∧ plan.Orders (implicit ++ mounts ++ readonly ++ masked) := by
  refine ⟨build_isOk, fun plan h => ?_⟩
  obtain ⟨implicit, mounts, readonly, masked, hplanned, hdistinct, hops⟩ := build_eq_ok.1 h
  exact ⟨implicit, mounts, readonly, masked, hplanned, hplanned.orders hdistinct hops⟩

/-- A tmpfs on `/a/b` declared before one on `/a`, which is to be both
protected against writing and masked. -/
def nestedInput : PlanInput where
  mounts := [{ destination := "/a/b", kind := .tmpfs }, { destination := "a/", kind := .tmpfs }]
  readonlyPaths := ["/a"]
  maskedPaths := ["/a"]
  implicitProc := true

/-- A host without files. -/
def noFiles : FileTree := .dir 0o755 []

theorem build_orders_nested :
    nestedInput.Plannable noFiles ∧ ∃ plan, build noFiles nestedInput = .ok plan
      ∧ ∃ implicit mounts readonly masked,
        nestedInput.Planned noFiles implicit mounts readonly masked
          ∧ plan.Orders (implicit ++ mounts ++ readonly ++ masked) := by
  have hplannable : nestedInput.Plannable noFiles := {
    mounts := List.forall_mem_cons.2 ⟨⟨_, rfl⟩, List.forall_mem_singleton.2 ⟨_, rfl⟩⟩
    distinct := List.pairwise_pair.2 fun target htarget => by
      obtain rfl := Except.ok.inj htarget
      decide
    readonly := List.forall_mem_singleton.2 ⟨_, rfl⟩
    masked := List.forall_mem_singleton.2 ⟨_, rfl⟩ }
  obtain ⟨plan, hplan⟩ := (build_orders noFiles nestedInput).1.2 hplannable
  exact ⟨hplannable, plan, hplan, (build_orders noFiles nestedInput).2 plan hplan⟩

end MountPlan

end ContainerMounts
