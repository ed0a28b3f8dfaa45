/-
ContainerMounts.Proofs.OwnerTables — from the ranges of a configuration to
the tables of a planned mount.

A list of ranges is a table if it is `Sound`: no range is empty or runs out
of the id space, and no id is in two of them on either side
(`IdMapping.ofRanges_eq_ok`). A configuration declares ranges for the
container and for single mounts, where no ranges stand for none declared;
what is read from it has sound tables throughout (`MountSetup.ofConfig_eq_ok`).
Planning picks the two tables of a mount one by one
(`PlanInput.chooseMapping_eq_ok`), and it fails rather than to plan a mapping
that cannot be made (`MountPlan.not_built`).
-/
import ContainerMounts.Proofs.Planning
import ContainerMounts.Setup

namespace ContainerMounts

/-! ## Ranges that stand together -/

namespace IdSpan

/-- The number lies in the stretch. -/
def Holds (a : IdSpan) (n : Nat) : Prop := a.start ≤ n ∧ n < a.stop

/-- No number lies in both. -/
def Disjoint (a b : IdSpan) : Prop := ∀ n, ¬ (a.Holds n ∧ b.Holds n)

/-- Stretches that hold something overlap if a number lies in both. -/
theorem overlaps_eq_false {a b : IdSpan} (ha : a.start < a.stop) (hb : b.start < b.stop) :
    a.overlaps b = false ↔ a.Disjoint b := by
  simp only [overlaps, Bool.and_eq_false_iff, decide_eq_false_iff_not, Nat.not_lt]
  constructor
  · rintro hapart n ⟨⟨h1, h2⟩, h3, h4⟩
    omega
  · intro hdisjoint
    by_contra hmeet
    have hboth := hdisjoint (max a.start b.start)
    simp only [Holds] at hboth
    omega

end IdSpan

namespace IdRange

/-- The two ranges share no id, on either side. -/
structure Apart (r other : IdRange) : Prop where
  container : r.containerSpan.Disjoint other.containerSpan
  host : r.hostSpan.Disjoint other.hostSpan

theorem Apart.symm {r other : IdRange} (h : r.Apart other) : other.Apart r :=
  ⟨fun n hn => h.container n hn.symm, fun n hn => h.host n hn.symm⟩

/-- The range holds ids, all of them in the id space. -/
structure Fits (r : IdRange) : Prop where
  positive : 0 < r.size.toNat
  container : r.container.toNat + r.size.toNat ≤ idSpace
  host : r.host.toNat + r.size.toNat ≤ idSpace

theorem Fits.iff {r : IdRange} : r.Fits ↔ r.size ≠ 0 ∧ r.overflows = false := by
  have hpositive : r.size ≠ 0 ↔ 0 < r.size.toNat := by
    rw [Ne, ← UInt32.toNat_inj]
    exact Nat.pos_iff_ne_zero.symm
  simp only [hpositive, overflows, Bool.or_eq_false_iff, decide_eq_false_iff_not, Nat.not_lt]
  exact ⟨fun h => ⟨h.positive, h.container, h.host⟩, fun h => ⟨h.1, h.2.1, h.2.2⟩⟩

theorem Fits.apart_iff {r other : IdRange} (hr : r.Fits) (hother : other.Fits) :
    r.containerSpan.overlaps other.containerSpan = false
        ∧ r.hostSpan.overlaps other.hostSpan = false ↔ r.Apart other := by
  have hr := hr.positive
  have hother := hother.positive
  rw [IdSpan.overlaps_eq_false (by simp only [containerSpan]; omega)
      (by simp only [containerSpan]; omega),
    IdSpan.overlaps_eq_false (by simp only [hostSpan]; omega) (by simp only [hostSpan]; omega)]
  exact ⟨fun h => ⟨h.1, h.2⟩, fun h => ⟨h.container, h.host⟩⟩

end IdRange

namespace IdMapping

/-- The ranges can stand together in a table. -/
structure Sound (ranges : List IdRange) : Prop where
  fits : ∀ r ∈ ranges, r.Fits
  apart : ranges.Pairwise IdRange.Apart

theorem sound_nil : Sound [] := ⟨nofun, .nil⟩

theorem conflict?_eq_none {i j : Nat} {r : IdRange} {others : List IdRange} :
    conflict? i r j others = none ↔ ∀ other ∈ others,
      r.containerSpan.overlaps other.containerSpan = false
        ∧ r.hostSpan.overlaps other.hostSpan = false := by
  induction others generalizing j with
  | nil => simp [conflict?]
  | cons other rest ih =>
      rw [conflict?, List.forall_mem_cons, ← ih (j := j + 1)]
      cases hcontainer : r.containerSpan.overlaps other.containerSpan <;>
        cases hhost : r.hostSpan.overlaps other.hostSpan <;> simp

theorem conflict?_eq_none_iff_apart {i j : Nat} {r : IdRange} {others : List IdRange}
    (hr : r.Fits) (hothers : ∀ other ∈ others, other.Fits) :
    conflict? i r j others = none ↔ ∀ other ∈ others, r.Apart other := by
  rw [conflict?_eq_none]
  exact forall₂_congr fun other hother => hr.apart_iff (hothers other hother)

theorem fault?_cons_eq_none {before rest : List IdRange} {r : IdRange} :
    fault? before (r :: rest) = none ↔ r.Fits
      ∧ conflict? before.length r 0 before = none ∧ fault? (before ++ [r]) rest = none := by
  rw [IdRange.Fits.iff, fault?]
  by_cases hsize : r.size = 0
  · simp [hsize]
  · cases hoverflows : r.overflows <;> cases conflict? before.length r 0 before <;>
      simp [hsize]

theorem Sound.left {before rest : List IdRange} (h : Sound (before ++ rest)) : Sound before :=
  ⟨fun r hr => h.fits r (List.mem_append_left _ hr), (List.pairwise_append.1 h.apart).1⟩

theorem sound_concat {before : List IdRange} {r : IdRange} :
    Sound (before ++ [r]) ↔ Sound before ∧ r.Fits ∧ ∀ other ∈ before, r.Apart other := by
  constructor
  · intro h
    have hapart := (List.pairwise_append.1 h.apart).2.2
    exact ⟨h.left, h.fits r (by simp), fun other hother => (hapart other hother r (by simp)).symm⟩
  · rintro ⟨hbefore, hfits, hapart⟩
    refine ⟨List.forall_mem_append.2 ⟨hbefore.fits, List.forall_mem_singleton.2 hfits⟩, ?_⟩
    refine List.pairwise_append.2 ⟨hbefore.apart, List.pairwise_singleton _ _, ?_⟩
    intro other hother s hs
    obtain rfl := List.mem_singleton.1 hs
    exact (hapart other hother).symm

/-- Ranges follow those of a sound table if each fits and is apart from all
before it. -/
theorem fault?_eq_none {before : List IdRange} (ranges : List IdRange) (hbefore : Sound before) :
    fault? before ranges = none ↔ Sound (before ++ ranges) := by
  induction ranges generalizing before with
  | nil => simp [fault?, hbefore]
  | cons r rest ih =>
      have happend : before ++ r :: rest = (before ++ [r]) ++ rest := by simp
      rw [fault?_cons_eq_none, happend]
      constructor
      · rintro ⟨hfits, hconflict, hrest⟩
        have hapart := (conflict?_eq_none_iff_apart hfits hbefore.fits).1 hconflict
        exact (ih (sound_concat.2 ⟨hbefore, hfits, hapart⟩)).1 hrest
      · intro hsound
        obtain ⟨-, hfits, hapart⟩ := sound_concat.1 hsound.left
        exact ⟨hfits, (conflict?_eq_none_iff_apart hfits hbefore.fits).2 hapart,
          (ih hsound.left).2 hsound⟩

/-- **Ranges make a table just when they can stand together.** -/
theorem ofRanges_eq_ok {ranges : List IdRange} {table : IdMapping} :
    ofRanges ranges = .ok table ↔ table = ⟨ranges⟩ ∧ Sound ranges := by
  have hsound := fault?_eq_none ranges sound_nil
  rw [List.nil_append] at hsound
  rw [ofRanges, ← hsound]
  cases fault? [] ranges <;> simp [eq_comm]

/-- No ranges are no table. -/
theorem ofDeclared_eq_ok {ranges : List IdRange} {table : Option IdMapping} :
    ofDeclared ranges = .ok table
      ↔ Sound ranges ∧ table = if ranges = [] then none else some ⟨ranges⟩ := by
  cases ranges with
  | nil => simp [ofDeclared, sound_nil, eq_comm]
  | cons r rest =>
      rw [ofDeclared, if_neg (by simp), if_neg (by simp)]
      constructor
      · intro h
        cases hranges : ofRanges (r :: rest) with
        | error e => simp [hranges, Functor.map, Except.map] at h
        | ok made =>
            obtain ⟨rfl, hsound⟩ := ofRanges_eq_ok.1 hranges
            rw [hranges] at h
            exact ⟨hsound, (Except.ok.inj h).symm⟩
      · rintro ⟨hsound, rfl⟩
        rw [ofRanges_eq_ok.2 ⟨rfl, hsound⟩]
        rfl

/-- A mount's own ranges, or the container's if it has none. -/
def ownOr (own container : List IdRange) : List IdRange := if own = [] then container else own

theorem ranges_getD {own : List IdRange} {container : IdMapping} :
    ((if own = [] then none else some ⟨own⟩ : Option IdMapping).getD container).ranges
      = ownOr own container.ranges := by
  unfold ownOr
  split <;> rfl

theorem sound_ownOr {own container : List IdRange} (hown : Sound own)
    (hcontainer : Sound container) : Sound (ownOr own container) := by
  unfold ownOr
  split
  · exact hcontainer
  · exact hown

end IdMapping

/-! ## The tables of a mount -/

open IdMapping (Sound ownOr)

theorem OwnerMapping.select_eq_ok {mountUid mountGid : Option IdMapping}
    {containerUid containerGid : IdMapping} {mapping : OwnerMapping} :
    select mountUid mountGid containerUid containerGid = .ok mapping
      ↔ mapping = ⟨mountUid.getD containerUid, mountGid.getD containerGid⟩
        ∧ (mountUid.getD containerUid).ranges ≠ [] ∧ (mountGid.getD containerGid).ranges ≠ [] := by
  rw [select]
  cases huid : (mountUid.getD containerUid).ranges <;>
    cases hgid : (mountGid.getD containerGid).ranges <;>
      simp [IdMapping.isEmpty, huid, hgid, eq_comm]

/-- A mapping is chosen for a mount that asks for one, unless it is to be a
symlink. -/
theorem PlanInput.chooseMapping_eq_ok {input : PlanInput} {r : MountRequest} {o : MountOptions}
    {source : MountSource} {idmap : Option OwnerMapping} :
    input.chooseMapping r o source = .ok idmap ↔
      ((o.idmap = .none ∨ source.isSymlink = true) ∧ idmap = none)
        ∨ (o.idmap ≠ .none ∧ source.isSymlink = false ∧ ∃ mapping, idmap = some mapping
          ∧ OwnerMapping.select r.uidMapping r.gidMapping input.uidMapping input.gidMapping
            = .ok mapping) := by
  rw [chooseMapping]
  by_cases hnone : o.idmap = .none ∨ source.isSymlink = true
  · have hnot : ¬ (o.idmap ≠ .none ∧ source.isSymlink = false) := by
      rintro ⟨h1, h2⟩
      rcases hnone with h | h
      · exact h1 h
      · simp [h2] at h
    rw [if_pos hnone]
    constructor
    · exact fun h => .inl ⟨hnone, (Except.ok.inj h).symm⟩
    · rintro (⟨-, rfl⟩ | ⟨h1, h2, -⟩)
      · rfl
      · exact absurd ⟨h1, h2⟩ hnot
  · obtain ⟨hasks, hplain⟩ := not_or.1 hnone
    rw [if_neg hnone]
    cases OwnerMapping.select r.uidMapping r.gidMapping input.uidMapping input.gidMapping with
    | error e => simp [Functor.map, Except.map, hasks, hplain]
    | ok mapping => simp [Functor.map, Except.map, hasks, hplain, eq_comm]

/-! ## Configurations -/

namespace RuntimeConfig

/-- The ranges that a configuration declares for the container. -/
def uidRanges (c : RuntimeConfig) : List IdRange := (c.linux.map (·.uidMappings)).getD []

/-- The same for groups. -/
def gidRanges (c : RuntimeConfig) : List IdRange := (c.linux.map (·.gidMappings)).getD []

end RuntimeConfig

namespace MountSetup

/-- What a mount entry is read as. -/
theorem request_eq_ok {entry : MountConfig} {r : MountRequest} (h : request entry = .ok r) :
    r.options = entry.options
      ∧ r.uidMapping = (if entry.uidMappings = [] then none else some ⟨entry.uidMappings⟩)
      ∧ r.gidMapping = (if entry.gidMappings = [] then none else some ⟨entry.gidMappings⟩)
      ∧ Sound entry.uidMappings ∧ Sound entry.gidMappings := by
  unfold request MountRequest.declare at h
  obtain ⟨o, -, h⟩ := bind_eq_ok.1 h
  obtain ⟨kind, -, h⟩ := bind_eq_ok.1 h
  obtain ⟨uid, huid, h⟩ := bind_eq_ok.1 h
  obtain ⟨gid, hgid, h⟩ := bind_eq_ok.1 h
  obtain rfl := Except.ok.inj h
  obtain ⟨hsoundUid, rfl⟩ := IdMapping.ofDeclared_eq_ok.1 huid
  obtain ⟨hsoundGid, rfl⟩ := IdMapping.ofDeclared_eq_ok.1 hgid
  exact ⟨rfl, rfl, rfl, hsoundUid, hsoundGid⟩

/-- What a configuration is read as: its mounts are the entries', and its
tables hold the container's ranges. -/
theorem ofConfig_eq_ok {config : RuntimeConfig} {rootfs : Path} {bundle : Option Path}
    {setup : MountSetup} (h : ofConfig config rootfs bundle = .ok setup) :
    List.Forall₂ (fun entry r => request entry = .ok r) config.mounts setup.input.mounts
      ∧ setup.input.bundle = bundle
      ∧ setup.input.uidMapping.ranges = config.uidRanges ∧ Sound config.uidRanges
      ∧ setup.input.gidMapping.ranges = config.gidRanges ∧ Sound config.gidRanges := by
  unfold ofConfig at h
  obtain ⟨mounts, hmounts, h⟩ := bind_eq_ok.1 h
  dsimp only at h
  have hmounts := mapM_eq_ok.1 hmounts
  have hempty : Sound [] := IdMapping.sound_nil
  unfold RuntimeConfig.uidRanges RuntimeConfig.gidRanges
  cases hlinux : config.linux with
  | none =>
      rw [hlinux] at h
      obtain rfl := Except.ok.inj h
      exact ⟨hmounts, rfl, rfl, hempty, rfl, hempty⟩
  | some linux =>
      rw [hlinux] at h
      obtain ⟨uid, huid, h⟩ := bind_eq_ok.1 h
      obtain ⟨gid, hgid, h⟩ := bind_eq_ok.1 h
      obtain ⟨propagation, -, h⟩ := bind_eq_ok.1 h
      obtain rfl := Except.ok.inj h
      obtain ⟨hsoundUid, rfl⟩ := IdMapping.ofDeclared_eq_ok.1 huid
      obtain ⟨hsoundGid, rfl⟩ := IdMapping.ofDeclared_eq_ok.1 hgid
      have hranges : ∀ ranges : List IdRange,
          ((if ranges = [] then none else some ⟨ranges⟩ : Option IdMapping).getD {}).ranges
            = ranges := fun ranges => by
        rw [IdMapping.ranges_getD, ownOr]
        split
        · exact Eq.symm ‹_›
        · rfl
      exact ⟨hmounts, rfl, hranges _, hsoundUid, hranges _, hsoundGid⟩

end MountSetup

/-! ## Planned mounts -/

section Planned

variable {input : PlanInput} {tree : FileTree} {op : MountOp} {r : MountRequest} {o : MountOptions}

/-- Only a bind can be id-mapped. -/
theorem MountRequest.bind_of_idmap (h : r.parsedOptions = .ok o) (hasks : o.idmap ≠ .none) :
    r.kind = .bind := by
  unfold parsedOptions at h
  obtain ⟨parsed, -, h⟩ := bind_eq_ok.1 h
  dsimp only at h
  split at h
  · simp [bind, Except.bind, throw, throwThe, MonadExceptOf.throw] at h
  · rename_i hallowed
    obtain rfl : parsed = o := by simpa [bind, Except.bind, pure, Except.pure] using h
    by_contra hkind
    exact hallowed ⟨hasks, hkind⟩

/-- A source narrows a mapping, but it does not drop it. -/
theorem MountSource.restrict_idmap {source : MountSource} :
    (source.restrict o).idmap = .none ↔ o.idmap = .none := by
  unfold restrict
  split
  · rename_i real kind
    unfold MountOptions.restrictedTo
    split
    · dsimp only
      split
      · rename_i hridmap
        simp [hridmap]
      · rfl
    · rfl
  · rfl

/-- The source of a bind is a path or a symlink. -/
theorem MountRequest.findSource_bind {source : MountSource} {bundle : Option Path}
    (h : r.findSource tree bundle o = .ok source) (hkind : r.kind = .bind) :
    (∃ real kind, source = .path real kind) ∨ source.isSymlink = true := by
  rw [findSource, if_pos hkind] at h
  have hreal : ∀ {real found}, MountSource.ofReal tree real = .ok found →
      ∃ real kind, found = .path real kind := by
    intro real found hfound
    unfold MountSource.ofReal at hfound
    obtain ⟨node, -, hfound⟩ := bind_eq_ok.1 hfound
    split at hfound
    · exact ⟨_, _, (Except.ok.inj hfound).symm⟩
    · simp at hfound
  cases hsource : r.source with
  | none => simp [hsource] at h
  | some raw =>
      rw [hsource] at h
      dsimp only at h
      unfold MountSource.inspect at h
      obtain ⟨node, -, h⟩ := bind_eq_ok.1 h
      split at h
      · split at h
        · exact .inr (by rw [← Except.ok.inj h]; rfl)
        · split at h
          · exact .inl (hreal h)
          · split at h
            · exact .inr (by rw [← Except.ok.inj h]; rfl)
            · simp [throw, throwThe, MonadExceptOf.throw] at h
      · obtain ⟨real, -, h⟩ := bind_eq_ok.1 h
        exact .inl (hreal h)

/-- **A mount that asks for a mapping and has a path to bind gets one**,
and no other does. -/
theorem PlanInput.planMount_idmap (h : input.planMount tree r = .ok op) :
    (∃ mapping, op.idmap = some mapping)
      ↔ op.options.idmap ≠ .none ∧ ∃ real kind, op.source = .path real kind := by
  obtain ⟨target, o, source, idmap, -, hparsed, hsource, hchoose, rfl⟩ := planMount_iff.1 h
  dsimp only
  rcases chooseMapping_eq_ok.1 hchoose with ⟨hnone, rfl⟩ | ⟨hasks, hplain, mapping, rfl, -⟩
  · refine ⟨nofun, fun ⟨hasks, real, kind, hpath⟩ => ?_⟩
    rcases hnone with hnone | hsymlink
    · exact absurd hnone hasks
    · simp [hpath, MountSource.isSymlink] at hsymlink
  · refine ⟨fun _ => ⟨hasks, ?_⟩, fun _ => ⟨mapping, rfl⟩⟩
    have hkind := MountRequest.bind_of_idmap hparsed (mt MountSource.restrict_idmap.2 hasks)
    rcases MountRequest.findSource_bind hsource hkind with hpath | hsymlink
    · exact hpath
    · simp [hplain] at hsymlink

/-- The tables of a mapped mount, by axis. -/
theorem PlanInput.planMount_tables {mapping : OwnerMapping} (h : input.planMount tree r = .ok op)
    (hidmap : op.idmap = some mapping) :
    mapping = ⟨r.uidMapping.getD input.uidMapping, r.gidMapping.getD input.gidMapping⟩
      ∧ mapping.uid.ranges ≠ [] ∧ mapping.gid.ranges ≠ [] := by
  obtain ⟨target, o, source, idmap, -, -, -, hchoose, rfl⟩ := planMount_iff.1 h
  dsimp only at hidmap
  subst hidmap
  rcases chooseMapping_eq_ok.1 hchoose with ⟨-, hnone⟩ | ⟨-, -, chosen, hchosen, hselect⟩
  · simp at hnone
  · obtain rfl := Option.some.inj hchosen
    obtain ⟨rfl, huid, hgid⟩ := OwnerMapping.select_eq_ok.1 hselect
    exact ⟨rfl, huid, hgid⟩

/-- What keeps a request that asks for a mapping from being planned: it is
no bind, or it binds a path and lacks a table. -/
inductive Unmappable (input : PlanInput) (tree : FileTree) (r : MountRequest) : Prop where
  | notBind (hkind : r.kind ≠ .bind)
  | noTable {o : MountOptions} {real : Path} {kind : FileKind}
      (hoptions : MountOptions.parse r.options = .ok o)
      (hsource : r.findSource tree input.bundle o = .ok (.path real kind))
      (htable : (r.uidMapping.getD input.uidMapping).ranges = []
        ∨ (r.gidMapping.getD input.gidMapping).ranges = [])

theorem PlanInput.not_planned (hoptions : MountOptions.parse r.options = .ok o)
    (hasks : o.idmap ≠ .none) (h : Unmappable input tree r) (op : MountOp) :
    input.planMount tree r ≠ .ok op := by
  intro hplanned
  obtain ⟨target, parsed, source, idmap, -, hparsed, hsource, hchoose, -⟩ :=
    planMount_iff.1 hplanned
  obtain rfl := Except.ok.inj (hoptions.symm.trans (MountRequest.parsedOptions_eq_ok hparsed))
  cases h with
  | notBind hkind => exact hkind (MountRequest.bind_of_idmap hparsed hasks)
  | @noTable o' real kind hoptions' hsource' htable =>
      obtain rfl := Except.ok.inj (hoptions.symm.trans hoptions')
      obtain rfl := Except.ok.inj (hsource.symm.trans hsource')
      rcases chooseMapping_eq_ok.1 hchoose with ⟨hnone, -⟩ | ⟨-, -, mapping, -, hselect⟩
      · rcases hnone with hnone | hsymlink
        · exact hasks (MountSource.restrict_idmap.1 hnone)
        · simp [MountSource.isSymlink] at hsymlink
      · obtain ⟨-, huid, hgid⟩ := OwnerMapping.select_eq_ok.1 hselect
        rcases htable with htable | htable
        · exact huid htable
        · exact hgid htable

/-- **A mapping that cannot be made keeps the plan from being made.** -/
theorem MountPlan.not_built (hr : r ∈ input.requests)
    (hoptions : MountOptions.parse r.options = .ok o) (hasks : o.idmap ≠ .none)
    (h : Unmappable input tree r) (plan : MountPlan) : MountPlan.build tree input ≠ .ok plan := by
  intro hbuild
  unfold build at hbuild
  obtain ⟨mounts, hmounts, -⟩ := bind_eq_ok.1 hbuild
  obtain ⟨hplanned, -⟩ := PlanInput.planMounts_eq_ok.1 hmounts
  obtain ⟨op, -, hop⟩ := exists_of_mem_right hplanned.flip hr
  exact PlanInput.not_planned hoptions hasks h op hop

end Planned

end ContainerMounts
