/-
ContainerMounts.Proofs.RequestedFlags — words that grant what options ask
for.

`MountOptions.Asks` are the restrictions an option list asks for, axis by
axis, and `MountOptions.Granted` says that a mount with these flags has
all of them and the access-time mode that is asked for. Both encodings of
a request grant it, and what is added later by a remount, by the mount
table or by an attribute call does not take it back.
-/
import ContainerMounts.IdMappedBind
import ContainerMounts.Plan
import ContainerMounts.Proofs.MountSurface
import ContainerMounts.Proofs.Restrictions

namespace ContainerMounts

open MountFlags hiding none bind remount readonly recursive nosuid nodev noexec noatime relatime
  strictatime

namespace MountFlags

variable {flags other part : MountFlags}

theorem or_and_of_apart (h : Apart other part) : (flags ||| other) &&& part = flags &&& part := by
  rw [BitVec.and_or_distrib_right, h]
  exact BitVec.or_zero

theorem or_and_of_apart_left (h : Apart flags part) :
    (flags ||| other) &&& part = other &&& part := by
  rw [BitVec.or_comm, or_and_of_apart h]

theorem apart_without_self : Apart (flags.without part) part := by
  rw [Apart, without, BitVec.and_assoc]
  simp

theorem without_and_of_apart (h : Apart other part) :
    flags.without other &&& part = flags &&& part := by
  apply BitVec.eq_of_getLsbD_eq
  intro i hi
  rw [without, BitVec.getLsbD_and, BitVec.getLsbD_and, BitVec.getLsbD_and, BitVec.getLsbD_not]
  cases hpart : part.getLsbD i with
  | false => rw [Bool.and_false, Bool.and_false]
  | true => rw [h.getLsbD hpart, decide_eq_true hi, Bool.not_false, Bool.and_true, Bool.and_true]

/-- A flag that a mount has for itself is kept. -/
theorem includes_and_ofMount (h : ofMount.includes part = true) :
    includes (flags &&& ofMount) part = flags.includes part := by
  rw [Bool.eq_iff_iff, includes_iff, includes_iff]
  apply forall₂_congr
  intro i hi
  rw [BitVec.getLsbD_and, includes_iff.1 h i hi, Bool.and_true]

end MountFlags

namespace MountOptions

/-- The options ask for the restriction. -/
inductive Asks (o : MountOptions) : MountFlags → Prop where
  | readonly (h : o.isReadonly = true) : Asks o MountFlags.readonly
  | nosuid (h : o.suid = .denied) : Asks o MountFlags.nosuid
  | nodev (h : o.dev = .denied) : Asks o MountFlags.nodev
  | noexec (h : o.exec = .denied) : Asks o MountFlags.noexec

/-- A mount with these flags has the restrictions that are asked for and, if
one is, the access-time mode. -/
structure Granted (o : MountOptions) (flags : MountFlags) : Prop where
  restricted : ∀ flag, o.Asks flag → flags.includes flag = true
  atime : o.atime ≠ .unset → flags &&& atimeModes = o.atime.flag

variable {o : MountOptions} {flags other flag : MountFlags}

/-- What is asked for is a restriction that is imposed. -/
theorem Asks.restriction (h : o.Asks flag) :
    ∃ r : Restriction, o.imposes r = true ∧ flag = r.flag := by
  cases h with
  | readonly h => exact ⟨.readonly, h, rfl⟩
  | nosuid h => exact ⟨.nosuid, decide_eq_true h, rfl⟩
  | nodev h => exact ⟨.nodev, decide_eq_true h, rfl⟩
  | noexec h => exact ⟨.noexec, decide_eq_true h, rfl⟩

theorem Asks.apart (h : o.Asks flag) (hother : ∀ e ∈ restrictions, Apart other e.2) :
    Apart other flag := by
  cases h with
  | readonly h => exact hother ("ro", MountFlags.readonly) (by decide)
  | nosuid h => exact hother ("nosuid", MountFlags.nosuid) (by decide)
  | nodev h => exact hother ("nodev", MountFlags.nodev) (by decide)
  | noexec h => exact hother ("noexec", MountFlags.noexec) (by decide)

/-! ## What keeps a request granted -/

theorem Granted.or (h : o.Granted flags) (hother : Apart other atimeModes) :
    o.Granted (flags ||| other) :=
  ⟨fun flag hflag => includes_or_left (h.restricted flag hflag),
    fun hatime => (or_and_of_apart hother).trans (h.atime hatime)⟩

theorem Granted.ofMount (h : o.Granted flags) : o.Granted (flags &&& MountFlags.ofMount) := by
  constructor
  · intro flag hflag
    have hmount : MountFlags.ofMount.includes flag = true := by cases hflag <;> decide
    rw [includes_and_ofMount hmount]
    exact h.restricted flag hflag
  · intro hatime
    have hmount : MountFlags.ofMount &&& atimeModes = atimeModes := by decide
    rw [BitVec.and_assoc, hmount]
    exact h.atime hatime

/-- The ambient access-time mode gives way to the one that is asked for. -/
theorem Granted.inherit {table : MountTable} {p : Path} (h : o.Granted flags) :
    o.Granted (table.inherit p flags) := by
  constructor
  · exact fun flag hflag => MountTable.inherit_includes_wanted (h.restricted flag hflag)
  · intro hatime
    have hflag := h.atime hatime
    have hmeets : flags.meets atimeModes = true := by
      rw [meets, hflag]
      cases hmode : o.atime with
      | unset => exact absurd hmode hatime
      | _ => decide
    rw [MountTable.inherit, if_pos hmeets, or_and_of_apart_left apart_without_self]
    exact hflag

theorem Granted.without (h : o.Granted flags) (hasked : ∀ flag, o.Asks flag → Apart other flag)
    (hatime : Apart other atimeModes) : o.Granted (flags.without other) := by
  constructor
  · intro flag hflag
    rw [includes_without_of_apart (hasked flag hflag)]
    exact h.restricted flag hflag
  · exact fun hmode => (without_and_of_apart hatime).trans (h.atime hmode)

theorem Granted.readonlyChange (h : o.Granted flags) : o.Granted (Run.readonlyChange.on flags) := by
  have hon : Run.readonlyChange.on flags = flags ||| MountFlags.readonly := by
    have hclear : Run.readonlyChange.clear.restrictions = 0 := by decide
    have hset : Run.readonlyChange.set.restrictions = MountFlags.readonly := by decide
    have hfield : ¬ includes Run.readonlyChange.clear MountAttrs.atimeField = true := by decide
    have hall : flags &&& ~~~(0#64) = flags := by rw [BitVec.not_zero, BitVec.and_allOnes]
    rw [AttrChange.on, if_neg hfield, hclear, hset]
    exact congrArg (· ||| MountFlags.readonly) hall
  rw [hon]
  exact h.or (by decide)

/-! ## What grants a request -/

theorem granted_flags (o : MountOptions) : o.Granted o.flags := by
  constructor
  · intro flag hflag
    obtain ⟨r, himposed, rfl⟩ := hflag.restriction
    exact flags_includes.trans himposed
  · intro _
    have hsync : Apart o.sync.flag atimeModes := by cases o.sync <;> decide
    have hmode : o.atime.flag &&& atimeModes = o.atime.flag := by cases o.atime <;> decide
    rw [flags_eq, or_and_of_apart hsync,
      or_and_of_apart_left (Restriction.union_apart (by decide)), hmode]

/-- The flags of options are those of a new mount. -/
theorem flags_fresh (o : MountOptions) : Apart o.flags callModes := by
  have hatime : Apart o.atime.flag callModes := by cases o.atime <;> decide
  have hsync : Apart o.sync.flag callModes := by cases o.sync <;> decide
  rw [flags_eq]
  exact ((Restriction.union_apart (by decide)).or hatime).or hsync

/-- What is opened is not asked for, axis by axis. -/
theorem relaxed_apart (hflag : o.Asks flag) : Apart o.relaxed flag := by
  obtain ⟨r, himposed, rfl⟩ := hflag.restriction
  exact r.flag_isBit.apart (relaxed_includes.trans (opens_of_imposes himposed))

theorem granted_inheritRelaxed (o : MountOptions) (table : MountTable) (p : Path) :
    o.Granted (table.inheritRelaxed p o.flags o.relaxed) := by
  refine (granted_flags o).inherit.without (fun flag hflag => relaxed_apart hflag) ?_
  rw [relaxed_eq]
  exact Restriction.union_apart (by decide)

/-- The two encodings agree on the restrictions. -/
theorem attrs_includes (h : o.Asks flag) : includes o.attrs flag = true := by
  obtain ⟨r, himposed, rfl⟩ := h.restriction
  rw [← r.attr_eq, attrs_includes_attr, himposed]

theorem restrictions_includes {attrs : MountAttrs} (h : o.Asks flag)
    (hattrs : includes attrs flag = true) : attrs.restrictions.includes flag = true := by
  obtain ⟨r, -, rfl⟩ := h.restriction
  have hunion : attrs.restrictions = Restriction.union fun r => includes attrs r.attr := rfl
  rw [hunion, Restriction.includes_union, r.attr_eq, hattrs]

theorem attrs_and_atimeField (o : MountOptions) :
    o.attrs &&& MountAttrs.atimeField = o.atime.attr := by
  have hmode : o.atime.attr &&& MountAttrs.atimeField = o.atime.attr := by
    cases o.atime <;> decide
  rw [attrs_eq, or_and_of_apart_left (Restriction.union_apart (by decide)), hmode]

/-- The attributes of the options, set in a copied tree. -/
theorem granted_idmapChange (o : MountOptions) :
    o.Granted ((Run.idmapChange o.attrs o.clearedAttrs).on flags) := by
  have hset : (Run.idmapChange o.attrs o.clearedAttrs).set = MountAttrs.idmap ||| o.attrs := rfl
  have hclear : (Run.idmapChange o.attrs o.clearedAttrs).clear = o.clearedAttrs := rfl
  unfold AttrChange.on
  rw [hset, hclear]
  constructor
  · intro flag hflag
    have hatime : Apart atimeModes flag := hflag.apart (by decide)
    have hrestricted : (flags.without o.clearedAttrs.restrictions |||
        (MountAttrs.idmap ||| o.attrs).restrictions).includes flag = true :=
      includes_or_right (restrictions_includes hflag (includes_or_right (attrs_includes hflag)))
    split
    · refine includes_or_left ?_
      rw [includes_without_of_apart hatime]
      exact hrestricted
    · exact hrestricted
  · intro hasked
    have hfield : includes o.clearedAttrs MountAttrs.atimeField = true :=
      clearedAttrs_includes_atimeField hasked
    have hvalue : (MountAttrs.idmap ||| o.attrs) &&& MountAttrs.atimeField = o.atime.attr := by
      rw [or_and_of_apart_left (by decide), attrs_and_atimeField]
    have hmode : (MountAttrs.idmap ||| o.attrs).atimeMode = o.atime := by
      unfold MountAttrs.atimeMode
      rw [hvalue]
      cases hatime : o.atime with
      | unset => exact absurd hatime hasked
      | _ => decide
    have hflag : o.atime.flag &&& atimeModes = o.atime.flag := by cases o.atime <;> decide
    rw [if_pos hfield, or_and_of_apart_left apart_without_self, hmode, hflag]

/-- Options that need no remount ask for nothing. -/
theorem granted_of_not_needsRemount (h : o.needsRemount = false) : o.Granted flags := by
  have hsilent := silent_of_skipped h
  constructor
  · intro flag hflag
    obtain ⟨r, himposed, -⟩ := hflag.restriction
    rw [hsilent.imposes] at himposed
    exact absurd himposed Bool.false_ne_true
  · exact fun hmode => absurd hsilent.atime hmode

/-- A narrowed request asks for the same on the mount itself. -/
theorem Granted.of_restrictedTo {kind : FileKind} (h : (o.restrictedTo kind).Granted flags) :
    o.Granted flags := by
  unfold restrictedTo at h
  split at h
  · constructor
    · intro flag hflag
      refine h.restricted flag ?_
      cases hflag with
      | readonly h =>
          refine .readonly ?_
          unfold isReadonly at h ⊢
          dsimp only
          split
          · rfl
          · exact h
      | nosuid h => exact .nosuid h
      | nodev h => exact .nodev h
      | noexec h => exact .noexec h
    · exact h.atime
  · exact h

theorem Granted.of_restrict {source : MountSource} (h : (source.restrict o).Granted flags) :
    o.Granted flags := by
  cases source with
  | path real kind => exact h.of_restrictedTo
  | _ => exact h

end MountOptions

end ContainerMounts
