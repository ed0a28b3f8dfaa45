/-
ContainerMounts.Proofs.EnclosingMount — the mount that a path lives on.

The table is read from front to back, and the best mount so far gives way to any
that is at least as deep. `MountTable.Encloses` says which mount that comes to,
without the reading: it is above the path by component, no mount above the path is
deeper, and none behind it is on the same target. Both ways in which the best mount
can go on behind one more record are a lemma (`Encloses.concat`, `encloses_last`),
and the induction along the table puts them together (`encloses_of_enclosing`).

A path with a mount on exactly itself lives on such a mount, however many others
are above it and wherever they stand, so the test for mount points misses none.

Main statement: the enclosing mount is the deepest and then latest above the path,
and a container's root is bound to itself just when no mount in the table is on it
(`enclosing_deepest_latest`).
-/
import ContainerMounts.Executor
import ContainerMounts.Proofs.CallContracts
import Mathlib.Data.List.Induction

namespace ContainerMounts

/-! ## The table -/

/-- The mount is above the path. -/
def MountRecord.Above (r : MountRecord) (p : Path) : Prop :=
  r.target.components <+: p.components

namespace MountTable

variable {table : MountTable} {p : Path} {r last best : MountRecord}

/-- The path lives on the mount: of the mounts above the path it is among the
deepest, and of those on its target the latest. -/
structure Encloses (table : MountTable) (p : Path) (r : MountRecord) : Prop where
  above : r.Above p
  deepest : ∀ other ∈ table, other.Above p → other.depth ≤ r.depth
  latest : ∃ before after, table = before ++ r :: after
    ∧ ∀ other ∈ after, other.target.components ≠ r.target.components

/-! ## One more record -/

theorem enclosing_concat : enclosing (table ++ [last]) p
    = if p.under last.target then better (table.enclosing p) last else table.enclosing p := by
  simp [enclosing]

theorem Encloses.mem (h : Encloses table p r) : r ∈ table := by
  obtain ⟨before, after, rfl, -⟩ := h.latest
  simp

/-- The best mount stays behind a record that is not above the path or not as
deep. -/
theorem Encloses.concat (h : Encloses table p best)
    (hlast : last.Above p → last.depth < best.depth) : Encloses (table ++ [last]) p best := by
  obtain ⟨before, after, hsplit, hlatest⟩ := h.latest
  refine ⟨h.above, fun other hother habove => ?_, before, after ++ [last], by simp [hsplit], ?_⟩
  · rcases List.mem_append.1 hother with hother | hother
    · exact h.deepest other hother habove
    · obtain rfl := List.mem_singleton.1 hother
      exact Nat.le_of_lt (hlast habove)
  · rw [List.forall_mem_append, List.forall_mem_singleton]
    refine ⟨hlatest, fun heq => ?_⟩
    have habove : last.Above p := by
      rw [MountRecord.Above, heq]
      exact h.above
    have hshallow := hlast habove
    rw [MountRecord.depth, MountRecord.depth, heq] at hshallow
    exact Nat.lt_irrefl _ hshallow

/-- A record above the path becomes the best if no earlier one is deeper. -/
theorem encloses_last (habove : last.Above p)
    (hdeepest : ∀ other ∈ table, other.Above p → other.depth ≤ last.depth) :
    Encloses (table ++ [last]) p last := by
  refine ⟨habove, ?_, table, [], rfl, by simp⟩
  rw [List.forall_mem_append, List.forall_mem_singleton]
  exact ⟨hdeepest, fun _ => Nat.le_refl _⟩

/-! ## The whole table -/

theorem enclosing_eq_none_iff : table.enclosing p = none ↔ ∀ r ∈ table, ¬ r.Above p := by
  induction table using List.reverseRecOn with
  | nil => simp [enclosing]
  | append_singleton table last ih =>
      rw [enclosing_concat, List.forall_mem_append, List.forall_mem_singleton]
      split
      · rename_i hunder
        refine iff_of_false ?_ fun h => h.2 (Path.under_iff.1 hunder)
        cases enclosing table p with
        | none => simp [better]
        | some best =>
            rw [better]
            split <;> simp
      · rename_i hunder
        rw [ih]
        exact ⟨fun h => ⟨h, fun habove => hunder (Path.under_iff.2 habove)⟩, fun h => h.1⟩

/-- The reading finds the deepest and then latest mount. -/
theorem encloses_of_enclosing (h : table.enclosing p = some r) : Encloses table p r := by
  induction table using List.reverseRecOn generalizing r with
  | nil => simp [enclosing] at h
  | append_singleton table last ih =>
      rw [enclosing_concat] at h
      split at h
      · rename_i hunder
        have habove : last.Above p := Path.under_iff.1 hunder
        cases hbest : enclosing table p with
        | none =>
            obtain rfl : last = r := by simpa [hbest, better] using h
            exact encloses_last habove fun other hother hover =>
              absurd hover (enclosing_eq_none_iff.1 hbest other hother)
        | some best =>
            have hencloses := ih hbest
            rw [hbest, better] at h
            split at h
            · rename_i hdeep
              obtain rfl := Option.some.inj h
              exact encloses_last habove fun other hother hover =>
                Nat.le_trans (hencloses.deepest other hother hover) hdeep
            · rename_i hshallow
              obtain rfl := Option.some.inj h
              exact hencloses.concat fun _ => Nat.lt_of_not_le hshallow
      · rename_i hunder
        exact (ih h).concat fun habove => absurd (Path.under_iff.2 habove) hunder

/-- Two mounts that enclose the path are on one target. -/
theorem Encloses.components_eq {r' : MountRecord} (h : Encloses table p r)
    (h' : Encloses table p r') : r.target.components = r'.target.components := by
  have hle : r.depth ≤ r'.depth := h'.deepest r h.mem h.above
  have hge : r'.depth ≤ r.depth := h.deepest r' h'.mem h'.above
  exact (List.prefix_of_prefix_length_le h.above h'.above hle).eq_of_length
    (Nat.le_antisymm hle hge)

/-- Behind the latest mount on its target stands no other on that target. -/
theorem eq_of_latest {x y : MountRecord} {xs ys middle : MountTable}
    (hsplit : x :: xs = middle ++ y :: ys)
    (hlatest : ∀ other ∈ xs, other.target.components ≠ x.target.components)
    (htarget : y.target.components = x.target.components) : x = y := by
  cases middle with
  | nil => exact (List.cons.inj hsplit).1
  | cons z zs =>
      obtain ⟨-, rfl⟩ := List.cons.inj hsplit
      exact absurd htarget (hlatest y (by simp))

theorem Encloses.unique {r' : MountRecord} (h : Encloses table p r) (h' : Encloses table p r') :
    r = r' := by
  have htarget := h.components_eq h'
  obtain ⟨before, after, hsplit, hlatest⟩ := h.latest
  obtain ⟨before', after', hsplit', hlatest'⟩ := h'.latest
  rw [hsplit, List.append_eq_append_iff] at hsplit'
  rcases hsplit' with ⟨middle, -, hbehind⟩ | ⟨middle, -, hbehind⟩
  · exact eq_of_latest hbehind hlatest htarget.symm
  · exact (eq_of_latest hbehind hlatest' htarget).symm

theorem enclosing_eq_some_iff : table.enclosing p = some r ↔ Encloses table p r := by
  refine ⟨encloses_of_enclosing, fun h => ?_⟩
  cases hbest : table.enclosing p with
  | none => exact absurd h.above (enclosing_eq_none_iff.1 hbest r h.mem)
  | some best => rw [(encloses_of_enclosing hbest).unique h]

/-- A path with a mount on exactly itself lives on such a mount. -/
theorem exists_target_iff : (∃ r ∈ table, r.target.components = p.components)
    ↔ ∃ r, table.enclosing p = some r ∧ r.target.components = p.components := by
  constructor
  · rintro ⟨r, hr, htarget⟩
    have habove : r.Above p := by simp only [MountRecord.Above, htarget, List.prefix_rfl]
    cases hbest : table.enclosing p with
    | none => exact absurd habove (enclosing_eq_none_iff.1 hbest r hr)
    | some best =>
        have hencloses := encloses_of_enclosing hbest
        have hle : p.components.length ≤ best.depth := by
          rw [← htarget]
          exact hencloses.deepest r hr habove
        have htargets := hencloses.above.eq_of_length
          (Nat.le_antisymm hencloses.above.length_le hle)
        exact ⟨best, rfl, htargets⟩
  · rintro ⟨r, hr, htarget⟩
    exact ⟨r, (encloses_of_enclosing hr).mem, htarget⟩

theorem isMountPoint_iff :
    table.isMountPoint p = true ↔ ∃ r ∈ table, r.target.components = p.components := by
  rw [exists_target_iff, isMountPoint]
  cases table.enclosing p with
  | none => simp
  | some best => simp [Path.same_iff]

end MountTable

/-! ## The container's root -/

/-- Between the machines these calls were put on record. -/
def Machine.Calls (m m' : Machine) (calls : List KernelCall) : Prop :=
  ∃ new, m'.log = m.log ++ new ∧ new.map (·.event.call) = calls

theorem Machine.Calls.trans {m m' m'' : Machine} {xs ys : List KernelCall} (h : m.Calls m' xs)
    (h' : m'.Calls m'' ys) : m.Calls m'' (xs ++ ys) := by
  obtain ⟨new, hlog, hcalls⟩ := h
  obtain ⟨new', hlog', hcalls'⟩ := h'
  exact ⟨new ++ new', by rw [hlog', hlog, List.append_assoc],
    by rw [List.map_append, hcalls, hcalls']⟩

namespace Run

variable (host : Host) (m : Machine)

theorem calls_mountCall (args : MountArgs) :
    ∃ fault m', (mountCall args).result host m = (.ok fault, m')
      ∧ m.Calls m' (if args.nulPosition? = none then [args.call] else []) := by
  unfold mountCall
  split
  · rename_i hnul
    exact ⟨_, _, rfl, [], by simp, by simp [hnul]⟩
  · rename_i hnul
    exact ⟨_, _, rfl, _, rfl, by simp [hnul]⟩

/-- A mount operation is its one call, unless an argument cannot be passed. -/
theorem calls_operation (operation : String) (args : MountArgs) :
    m.Calls ((mountCall? operation args >>= raise).result host m).2
      (if args.nulPosition? = none then [args.call] else []) := by
  obtain ⟨fault, m', hresult, hcalls⟩ := calls_mountCall host m args
  have hoperation : (mountCall? operation args).result host m
      = (.ok (fault.map fun f => .mount operation args.target.path f), m') := by
    unfold mountCall?
    rw [result_bind, hresult]
    rfl
  rw [result_bind, hoperation]
  dsimp only
  rwa [result_raise]

/-- What comes second is made in full or not at all. -/
theorem calls_bind {α β : Type} {act : Run α} {f : α → Run β} {xs ys : List KernelCall}
    (h : m.Calls (act.result host m).2 xs)
    (hf : ∀ a (m' : Machine), m'.Calls ((f a).result host m').2 ys) :
    ∃ more, (more = ys ∨ more = []) ∧ m.Calls ((act >>= f).result host m).2 (xs ++ more) := by
  rw [result_bind]
  cases hact : act.result host m with
  | mk outcome m' =>
      rw [hact] at h
      cases outcome with
      | ok a => exact ⟨ys, .inl rfl, h.trans (hf a m')⟩
      | error e => exact ⟨[], .inr rfl, by simpa using h⟩

end Run

namespace Executor

variable {ex : Executor} {host : Host} {m : Machine} {table : MountTable}

/-- The call that binds a container's root to itself. -/
def selfBind (root : Path) : KernelCall :=
  .mount (some (.at root)) (.at root) none (Contract.bindFlags true) none

/-- The root is bound to itself first if no mount is on it. -/
theorem prepareRootfs_result (htable : host.table m.events = .ok table) :
    ex.prepareRootfs.result host m
      = (if ∃ r ∈ table, r.target.components = ex.rootfs.path.components then
          Run.setPropagation ex.rootfs.path ex.propagation
        else do
          Run.bindMount (.at ex.rootfs.path) (.at ex.rootfs.path) true
          Run.setPropagation ex.rootfs.path ex.propagation).result host m := by
  have htest : (Run.isMountPoint ex.rootfs.path).result host m
      = (.ok (table.isMountPoint ex.rootfs.path), m) := by
    unfold Run.isMountPoint
    rw [Run.result_bind, Run.result_table, htable]
    rfl
  unfold prepareRootfs
  dsimp only
  rw [Run.result_bind, htest]
  dsimp only
  by_cases hlisted : ∃ r ∈ table, r.target.components = ex.rootfs.path.components
  · rw [if_pos hlisted, MountTable.isMountPoint_iff.2 hlisted]
    rfl
  · have hnone : table.isMountPoint ex.rootfs.path = false := by
      rwa [← Bool.not_eq_true, MountTable.isMountPoint_iff]
    rw [if_neg hlisted, hnone]
    rfl

theorem calls_setPropagation (root : Path) (propagation : Propagation) :
    ∃ calls, selfBind root ∉ calls
      ∧ ∀ host (m : Machine),
        m.Calls ((Run.setPropagation root propagation).result host m).2 calls := by
  refine ⟨_, ?_, fun host m => Run.calls_operation host m "set propagation" _⟩
  split
  · rw [List.mem_singleton]
    exact nofun
  · simp

theorem calls_selfBind (root : Path) :
    ∃ calls, (selfBind root ∈ calls ↔ root.nulPosition? = none)
      ∧ ∀ host (m : Machine),
          m.Calls ((Run.bindMount (.at root) (.at root) true).result host m).2 calls := by
  refine ⟨_, ?_, fun host m => Run.calls_operation host m "bind mount" _⟩
  cases hnul : root.nulPosition? with
  | none =>
      simp [Run.MountArgs.nulPosition?, Run.MountArgs.call, Spot.path, hnul, selfBind,
        Contract.bindFlags]
  | some position => simp [Run.MountArgs.nulPosition?, Spot.path, hnul]

/-- The call is made just when no mount is on the root; a root with a NUL byte
cannot be passed. -/
theorem prepareRootfs_calls (htable : host.table m.events = .ok table) :
    ∃ calls, m.Calls (ex.prepareRootfs.result host m).2 calls
      ∧ (selfBind ex.rootfs.path ∈ calls ↔
          (∀ r ∈ table, r.target.components ≠ ex.rootfs.path.components)
            ∧ ex.rootfs.path.nulPosition? = none) := by
  obtain ⟨later, hlater, hset⟩ := calls_setPropagation ex.rootfs.path ex.propagation
  obtain ⟨first, hfirst, hbind⟩ := calls_selfBind ex.rootfs.path
  rw [prepareRootfs_result htable]
  by_cases hlisted : ∃ r ∈ table, r.target.components = ex.rootfs.path.components
  · rw [if_pos hlisted]
    obtain ⟨r, hr, htarget⟩ := hlisted
    exact ⟨later, hset host m, iff_of_false hlater fun h => h.1 r hr htarget⟩
  · rw [if_neg hlisted]
    obtain ⟨more, hmore, hcalls⟩ := Run.calls_bind host m (hbind host m) fun _ => hset host
    have hnotMore : selfBind ex.rootfs.path ∉ more := by
      rcases hmore with rfl | rfl
      · exact hlater
      · simp
    refine ⟨first ++ more, hcalls, ?_⟩
    rw [List.mem_append, or_iff_left hnotMore, hfirst]
    exact ⟨fun hnul => ⟨fun r hr htarget => hlisted ⟨r, hr, htarget⟩, hnul⟩, fun h => h.2⟩

end Executor

/-- **A path lives on the longest and then latest mount above it.** Whatever stands
in the table and in whichever order, the mount that encloses a path is the deepest
of those above it by component, and of those on its target the last; there is none
just when no mount is above the path. A mount is on exactly the path just when the
enclosing one is. So a container's root is bound to itself just when no mount in the
table is on it, unless the root has a NUL byte and cannot be passed. -/
theorem enclosing_deepest_latest :
    (∀ (table : MountTable) (p : Path),
      (table.enclosing p = none ↔ ∀ r ∈ table, ¬ r.Above p)
      ∧ (∀ r, table.enclosing p = some r ↔ MountTable.Encloses table p r)
      ∧ ((∃ r ∈ table, r.target.components = p.components)
          ↔ ∃ r, table.enclosing p = some r ∧ r.target.components = p.components)
      ∧ (table.isMountPoint p = true ↔ ∃ r ∈ table, r.target.components = p.components))
    ∧ ∀ (ex : Executor) (host : Host) (m : Machine) (table : MountTable),
      host.table m.events = .ok table →
      ex.prepareRootfs.result host m
        = (if ∃ r ∈ table, r.target.components = ex.rootfs.path.components then
            Run.setPropagation ex.rootfs.path ex.propagation
          else do
            Run.bindMount (.at ex.rootfs.path) (.at ex.rootfs.path) true
            Run.setPropagation ex.rootfs.path ex.propagation).result host m
      ∧ ∃ calls, m.Calls (ex.prepareRootfs.result host m).2 calls
        ∧ (Executor.selfBind ex.rootfs.path ∈ calls ↔
            (∀ r ∈ table, r.target.components ≠ ex.rootfs.path.components)
              ∧ ex.rootfs.path.nulPosition? = none) :=
  ⟨fun _ _ => ⟨MountTable.enclosing_eq_none_iff, fun _ => MountTable.enclosing_eq_some_iff,
      MountTable.exists_target_iff, MountTable.isMountPoint_iff⟩,
    fun _ _ _ _ htable =>
      ⟨Executor.prepareRootfs_result htable, Executor.prepareRootfs_calls htable⟩⟩

/-- A root that was mounted twice, with a mount below it and one above it, all out
of order and one written with more separators than it needs. -/
theorem enclosing_deepest_latest_stacked :
    let mounted (target fsType : String) : MountRecord := ⟨.ofString target, fsType, fsType, [], []⟩
    let table : MountTable := [mounted "/c/r" "ext4", mounted "/c/r/d" "proc",
      mounted "//c/./r/" "overlay", mounted "/c" "tmpfs", mounted "/c/rr" "tmpfs"]
    let host : Host := .granting {} (.ok table)
    let ex : Executor := { rootfs := ⟨.ofString "/c/r"⟩, namespaces := {} }
    let m : Machine := { tree := .dir 0o755 [] }
    host.table m.events = .ok table
      ∧ MountTable.Encloses table (.ofString "/c/r/x") (mounted "//c/./r/" "overlay")
      ∧ ∃ calls, m.Calls (ex.prepareRootfs.result host m).2 calls
        ∧ Executor.selfBind (.ofString "/c/r") ∉ calls := by
  intro mounted table host ex m
  have hlast : table.enclosing (.ofString "/c/r/x") = some (mounted "//c/./r/" "overlay") := by
    decide +kernel
  have hlisted : ∃ r ∈ table, r.target.components = (Path.ofString "/c/r").components := by
    decide +kernel
  obtain ⟨hencloses, hroot⟩ := enclosing_deepest_latest
  obtain ⟨-, calls, hcalls, hself⟩ := hroot ex host m table rfl
  refine ⟨rfl, ((hencloses table _).2.1 _).1 hlast, calls, hcalls, fun h => ?_⟩
  obtain ⟨r, hr, htarget⟩ := hlisted
  exact (hself.1 h).1 r hr htarget

end ContainerMounts
