/-
ContainerMounts.Proofs.Planning — where the operations of a plan come from.

`planMount_iff` and `planOverlay_iff` say when one operation can be planned
and what it is then, `planMounts_eq_ok` and `planOverlays_eq_ok` the same of
all of them. Read backwards, an operation of a plan that is no overlay is the
one that some request was planned as, and the options it carries are those
that the request declares, as far as its source can honour them.
-/
import ContainerMounts.Plan
import Mathlib.Data.List.Forall2

namespace ContainerMounts

/-- Two steps succeed if the first does and the second does with its value. -/
theorem bind_eq_ok {ε α β : Type} {x : Except ε α} {f : α → Except ε β} {b : β} :
    (x >>= f) = .ok b ↔ ∃ a, x = .ok a ∧ f a = .ok b := by
  cases x with
  | error e => simp [bind, Except.bind]
  | ok a => simp [bind, Except.bind]

variable {input : PlanInput} {tree : FileTree} {op : MountOp}

/-! ## One operation -/

theorem MountRequest.parsedOptions_eq_ok {r : MountRequest} {o : MountOptions}
    (h : r.parsedOptions = .ok o) : MountOptions.parse r.options = .ok o := by
  unfold MountRequest.parsedOptions at h
  obtain ⟨parsed, hparse, h⟩ := bind_eq_ok.1 h
  dsimp only at h
  split at h
  · simp [bind, Except.bind, throw, throwThe, MonadExceptOf.throw] at h
  · obtain rfl : parsed = o := by simpa [bind, Except.bind, pure, Except.pure] using h
    exact hparse

/-- A request is planned if its destination has one form, its options can be
read, its source is found and there is an id mapping for it. -/
theorem PlanInput.planMount_iff {r : MountRequest} : input.planMount tree r = .ok op ↔
    ∃ target o source idmap, Destination.normalize r.destination = .ok target
      ∧ r.parsedOptions = .ok o ∧ r.findSource tree input.bundle o = .ok source
      ∧ input.chooseMapping r (source.restrict o) source = .ok idmap
      ∧ op = { request := r, target, source, options := source.restrict o, depth := target.depth,
               phase := .mount, idmap } := by
  unfold planMount MountRequest.survey
  simp only [bind_eq_ok, pure, Except.pure, Except.ok.injEq]
  constructor
  · rintro ⟨_, ⟨target, htarget, o, ho, source, hsource, rfl⟩, idmap, hidmap, rfl⟩
    exact ⟨target, o, source, idmap, htarget, ho, hsource, hidmap, rfl⟩
  · rintro ⟨target, o, source, idmap, htarget, ho, hsource, hidmap, rfl⟩
    exact ⟨_, ⟨target, htarget, o, ho, source, hsource, rfl⟩, idmap, hidmap, rfl⟩

/-- The operation of a request has the options that the request declares, as
far as the source can honour them. -/
theorem PlanInput.planMount_eq_ok {r : MountRequest} (h : input.planMount tree r = .ok op) :
    op.request = r ∧ op.overlay = none
      ∧ ∃ o, MountOptions.parse r.options = .ok o ∧ op.options = op.source.restrict o := by
  obtain ⟨target, o, source, idmap, -, hparsed, -, -, rfl⟩ := planMount_iff.1 h
  exact ⟨rfl, rfl, o, MountRequest.parsedOptions_eq_ok hparsed, rfl⟩

theorem PlanInput.planMount_target {r : MountRequest} (h : input.planMount tree r = .ok op) :
    Destination.normalize r.destination = .ok op.target ∧ op.depth = op.target.depth
      ∧ op.phase = .mount := by
  obtain ⟨target, o, source, idmap, htarget, -, -, -, rfl⟩ := planMount_iff.1 h
  exact ⟨htarget, rfl, rfl⟩

/-- What is mounted, if not a tree of the host, is known by name. -/
theorem PlanInput.planMount_virtual {r : MountRequest} (h : input.planMount tree r = .ok op)
    (hkind : r.kind ≠ .bind) : ∃ name, op.source = .virtual name := by
  obtain ⟨target, o, source, idmap, -, -, hsource, -, rfl⟩ := planMount_iff.1 h
  rw [MountRequest.findSource, if_neg hkind] at hsource
  exact ⟨_, (Except.ok.inj hsource).symm⟩

theorem PlanInput.planOverlay_iff {kind : OverlayKind} {path : String} :
    planOverlay kind path = .ok op ↔ ∃ target, Destination.normalize path = .ok target
      ∧ op = { request := { destination := path, kind := .bind }, target, source := .target,
               options := { access := .readOnly }, depth := target.depth, phase := .overlay,
               overlay := some kind } := by
  unfold planOverlay
  simp only [bind_eq_ok, pure, Except.pure, Except.ok.injEq, eq_comm (a := op)]

theorem PlanInput.planOverlay_eq_ok {kind : OverlayKind} {path : String}
    (h : planOverlay kind path = .ok op) : op.overlay = some kind ∧ op.request.kind = .bind := by
  obtain ⟨target, -, rfl⟩ := planOverlay_iff.1 h
  exact ⟨rfl, rfl⟩

theorem PlanInput.planOverlay_target {kind : OverlayKind} {path : String}
    (h : planOverlay kind path = .ok op) :
    Destination.normalize path = .ok op.target ∧ op.depth = op.target.depth
      ∧ op.phase = .overlay := by
  obtain ⟨target, htarget, rfl⟩ := planOverlay_iff.1 h
  exact ⟨htarget, rfl, rfl⟩

/-! ## All operations -/

section Lists

variable {α β ε : Type}

/-- A traversal succeeds with the results of its steps. -/
theorem mapM_eq_ok {f : α → Except ε β} {xs : List α} {ys : List β} :
    xs.mapM f = .ok ys ↔ List.Forall₂ (fun x y => f x = .ok y) xs ys := by
  induction xs generalizing ys with
  | nil => simp [pure, Except.pure, eq_comm]
  | cons x rest ih =>
      simp only [List.mapM_cons, bind_eq_ok, ih, List.forall₂_cons_left_iff]
      constructor
      · rintro ⟨y, hy, more, hmore, heq⟩
        exact ⟨y, more, hy, hmore, (Except.ok.inj heq).symm⟩
      · rintro ⟨y, more, hy, hmore, rfl⟩
        exact ⟨y, hy, more, hmore, rfl⟩

theorem exists_of_mem_right {R : α → β → Prop} {xs : List α} {ys : List β} {y : β}
    (h : List.Forall₂ R xs ys) (hy : y ∈ ys) : ∃ x ∈ xs, R x y := by
  induction h with
  | nil => simp at hy
  | @cons x first xs ys hfirst _ ih =>
      rcases List.mem_cons.1 hy with rfl | hy
      · exact ⟨x, by simp, hfirst⟩
      · obtain ⟨x', hx', hR⟩ := ih hy
        exact ⟨x', by simp [hx'], hR⟩

end Lists

namespace PlanInput

theorem planMounts_cons_eq_ok {taken : List Path} {r : MountRequest}
    {rest : List MountRequest} {ops : List MountOp} :
    input.planMounts tree taken (r :: rest) = .ok ops ↔
      ∃ op more, input.planMount tree r = .ok op ∧ op.target ∉ taken
        ∧ input.planMounts tree (op.target :: taken) rest = .ok more ∧ ops = op :: more := by
  rw [planMounts, bind_eq_ok]
  refine exists_congr fun op => ?_
  by_cases htaken : op.target ∈ taken
  · simp [htaken, bind, Except.bind, throw, throwThe, MonadExceptOf.throw]
  · simp [htaken, bind_eq_ok, pure, Except.pure, eq_comm (a := ops)]

/-- The requests are planned one by one, and no two go to one place. -/
theorem planMounts_eq_ok {taken : List Path} {requests : List MountRequest} {ops : List MountOp} :
    input.planMounts tree taken requests = .ok ops ↔
      List.Forall₂ (fun r op => input.planMount tree r = .ok op) requests ops
        ∧ ops.Pairwise (fun a b => a.target ≠ b.target) ∧ ∀ op ∈ ops, op.target ∉ taken := by
  induction requests generalizing taken ops with
  | nil =>
      simp only [planMounts, List.forall₂_nil_left_iff, Except.ok.injEq, eq_comm (a := [])]
      constructor
      · rintro rfl
        simp
      · exact fun h => h.1
  | cons r rest ih =>
      rw [planMounts_cons_eq_ok, List.forall₂_cons_left_iff]
      constructor
      · rintro ⟨op, more, hop, hfree, hmore, rfl⟩
        obtain ⟨hplanned, hdistinct, hnew⟩ := ih.1 hmore
        refine ⟨⟨op, more, hop, hplanned, rfl⟩, List.pairwise_cons.2 ⟨fun other hother => ?_, hdistinct⟩,
          List.forall_mem_cons.2 ⟨hfree, fun other hother => ?_⟩⟩
        · exact fun heq => hnew other hother (by simp [heq])
        · exact fun htaken => hnew other hother (List.mem_cons_of_mem _ htaken)
      · rintro ⟨⟨op, more, hop, hplanned, rfl⟩, hdistinct, hnew⟩
        obtain ⟨hfirst, hdistinct⟩ := List.pairwise_cons.1 hdistinct
        obtain ⟨hfree, hnew⟩ := List.forall_mem_cons.1 hnew
        refine ⟨op, more, hop, hfree, ih.2 ⟨hplanned, hdistinct, fun other hother => ?_⟩, rfl⟩
        exact List.mem_cons.not.2 (not_or.2 ⟨(hfirst other hother).symm, hnew other hother⟩)

theorem planOverlays_eq_ok {ops : List MountOp} :
    input.planOverlays = .ok ops ↔
      ∃ readonly masked, ops = readonly ++ masked
        ∧ List.Forall₂ (fun path op => planOverlay .readonly path = .ok op)
            input.readonlyPaths readonly
        ∧ List.Forall₂ (fun path op => planOverlay .masked path = .ok op)
            input.maskedPaths masked := by
  rw [planOverlays]
  simp only [bind_eq_ok, mapM_eq_ok]
  constructor
  · rintro ⟨readonly, hreadonly, masked, hmasked, heq⟩
    exact ⟨readonly, masked, (Except.ok.inj heq).symm, hreadonly, hmasked⟩
  · rintro ⟨readonly, masked, rfl, hreadonly, hmasked⟩
    exact ⟨readonly, hreadonly, masked, hmasked, rfl⟩

end PlanInput

/-- A plan of one operation, which is a mount or an overlay. -/
theorem MountPlan.build_eq_singleton {mounts overlays : List MountOp}
    (hmounts : input.planMounts tree [] input.requests = .ok mounts)
    (hoverlays : input.planOverlays = .ok overlays) (hop : mounts ++ overlays = [op]) :
    MountPlan.build tree input = .ok ⟨[op]⟩ := by
  unfold MountPlan.build
  rw [hmounts, hoverlays]
  simp [bind, Except.bind, pure, Except.pure, hop]

/-- An operation of a plan is the one of a request or protects a path. -/
theorem MountPlan.planned_of_mem {plan : MountPlan} (h : MountPlan.build tree input = .ok plan)
    (hop : op ∈ plan.ops) :
    (∃ r ∈ input.requests, input.planMount tree r = .ok op)
      ∨ ∃ kind path, PlanInput.planOverlay kind path = .ok op := by
  unfold MountPlan.build at h
  obtain ⟨mounts, hmounts, h⟩ := bind_eq_ok.1 h
  obtain ⟨overlays, hoverlays, h⟩ := bind_eq_ok.1 h
  obtain rfl := Except.ok.inj h
  obtain ⟨readonly, masked, rfl, hreadonly, hmasked⟩ := PlanInput.planOverlays_eq_ok.1 hoverlays
  rcases List.mem_append.1 (List.mem_mergeSort.1 hop) with hop | hop
  · obtain ⟨r, hr, hplanned⟩ := exists_of_mem_right (PlanInput.planMounts_eq_ok.1 hmounts).1 hop
    exact .inl ⟨r, hr, hplanned⟩
  · rcases List.mem_append.1 hop with hop | hop
    · obtain ⟨path, -, hpath⟩ := exists_of_mem_right hreadonly hop
      exact .inr ⟨.readonly, path, hpath⟩
    · obtain ⟨path, -, hpath⟩ := exists_of_mem_right hmasked hop
      exact .inr ⟨.masked, path, hpath⟩

/-- An operation of a plan that is no overlay is the one of a request. -/
theorem MountPlan.mem_build {plan : MountPlan} (h : MountPlan.build tree input = .ok plan)
    (hop : op ∈ plan.ops) (hdeclared : op.overlay = none) :
    ∃ r ∈ input.requests, input.planMount tree r = .ok op := by
  rcases MountPlan.planned_of_mem h hop with hmount | ⟨kind, path, hpath⟩
  · exact hmount
  · simp [(PlanInput.planOverlay_eq_ok hpath).1] at hdeclared

/-- An operation of a plan whose kind is not that of a bind mounts a filesystem,
with the options as they were declared. -/
theorem MountPlan.virtual_of_mem {plan : MountPlan} (h : MountPlan.build tree input = .ok plan)
    (hop : op ∈ plan.ops) (hkind : op.request.kind ≠ .bind) :
    op.overlay = none ∧ (∃ name, op.source = .virtual name)
      ∧ MountOptions.parse op.request.options = .ok op.options := by
  rcases MountPlan.planned_of_mem h hop with ⟨r, -, hmount⟩ | ⟨kind, path, hpath⟩
  · obtain ⟨rfl, hoverlay, o, hparse, hoptions⟩ := PlanInput.planMount_eq_ok hmount
    obtain ⟨name, hsource⟩ := PlanInput.planMount_virtual hmount hkind
    rw [hsource] at hoptions
    exact ⟨hoverlay, ⟨name, hsource⟩, hoptions ▸ hparse⟩
  · exact absurd (PlanInput.planOverlay_eq_ok hpath).2 hkind

end ContainerMounts
