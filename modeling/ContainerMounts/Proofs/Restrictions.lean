/-
ContainerMounts.Proofs.Restrictions — the four restrictions of a mount.

A `Restriction` has a flag, an attribute, a word in a mount table and an axis of the
option list. A request is read restriction by restriction: it imposes one, opens it,
or says nothing of it (`MountOptions.imposes`, `MountOptions.opens`). The words that
options ask for are then unions of restrictions and an access-time mode, by an
equation for each word (`MountOptions.flags_eq`, `MountOptions.relaxed_eq`,
`MountOptions.attrs_eq`, `MountOptions.clearedAttrs_eq`), and each word has the
restrictions that its name tells.
-/
import ContainerMounts.Proofs.FlagWords
import ContainerMounts.Proofs.LastTokenWins

namespace ContainerMounts

open MountFlags (Apart)

/-! ## Restrictions -/

/-- What a mount can refuse. -/
inductive Restriction where
  | readonly
  | nosuid
  | nodev
  | noexec
  deriving DecidableEq, Repr

namespace Restriction

/-- Its flag. -/
def flag : Restriction → MountFlags
  | readonly => MountFlags.readonly
  | nosuid => MountFlags.nosuid
  | nodev => MountFlags.nodev
  | noexec => MountFlags.noexec

/-- Its attribute. -/
def attr : Restriction → MountAttrs
  | readonly => MountAttrs.readonly
  | nosuid => MountAttrs.nosuid
  | nodev => MountAttrs.nodev
  | noexec => MountAttrs.noexec

/-- Its word in a mount table. -/
def option : Restriction → String
  | readonly => "ro"
  | nosuid => "nosuid"
  | nodev => "nodev"
  | noexec => "noexec"

/-- The axis on which options speak of it. -/
abbrev axis : Restriction → Axis
  | readonly => .access
  | nosuid => .suid
  | nodev => .dev
  | noexec => .exec

/-- The words of the axis that ask for it; the others open it. -/
def tokens : Restriction → List String
  | readonly => ["ro", "rro"]
  | nosuid => ["nosuid"]
  | nodev => ["nodev"]
  | noexec => ["noexec"]

/-- This value of the axis asks for it. -/
def imposedBy : (r : Restriction) → r.axis.Value → Bool
  | readonly => Access.isReadonly
  | nosuid | nodev | noexec => fun v => v = Allowance.denied

/-- This value of the axis opens it. -/
def openedBy : (r : Restriction) → r.axis.Value → Bool
  | readonly => Access.isWritable
  | nosuid | nodev | noexec => fun v => v = Allowance.allowed

/-- The flags of the restrictions that are chosen. -/
def union (chosen : Restriction → Bool) : MountFlags :=
  (if chosen .readonly then flag .readonly else 0) ||| (if chosen .nosuid then flag .nosuid else 0)
    ||| (if chosen .nodev then flag .nodev else 0) ||| (if chosen .noexec then flag .noexec else 0)

variable {r : Restriction} {chosen other : Restriction → Bool}

/-- The two encodings have one bit for it. -/
theorem attr_eq (r : Restriction) : r.attr = r.flag := by cases r <;> rfl

theorem flag_isBit (r : Restriction) : r.flag.IsBit := by
  cases r with
  | readonly => exact ⟨0, by decide, by decide⟩
  | nosuid => exact ⟨1, by decide, by decide⟩
  | nodev => exact ⟨2, by decide, by decide⟩
  | noexec => exact ⟨3, by decide, by decide⟩

theorem includes_flag (r s : Restriction) : s.flag.includes r.flag = decide (s = r) := by
  cases r <;> cases s <;> decide

theorem includes_union : (union chosen).includes r.flag = chosen r := by
  simp only [union, r.flag_isBit.includes_or, r.flag_isBit.includes_ite, includes_flag]
  cases r <;> simp

/-- The flags of all of them. -/
def all : MountFlags := union fun _ => true

theorem union_apart {part : MountFlags} (h : Apart all part) :
    Apart (union chosen) part := by
  have hflag : ∀ r : Restriction, Apart r.flag part := fun r =>
    h.of_includes (by cases r <;> decide)
  exact (((hflag _).ite.or (hflag _).ite).or (hflag _).ite).or (hflag _).ite

theorem union_apart_union (h : ∀ r, chosen r = true → other r = false) :
    Apart (union chosen) (union other) := by
  have hone (r : Restriction) : Apart (if chosen r then r.flag else 0) (union other) := by
    cases hr : chosen r with
    | false => exact BitVec.zero_and
    | true => exact (r.flag_isBit.apart (includes_union.trans (h r hr))).symm
  exact (((hone _).or (hone _)).or (hone _)).or (hone _)

end Restriction

/-! ## Restrictions in options -/

namespace MountOptions

/-- The options ask for the restriction. -/
def imposes (o : MountOptions) (r : Restriction) : Bool := r.imposedBy (r.axis.get o)

/-- The options open it. -/
def opens (o : MountOptions) (r : Restriction) : Bool := r.openedBy (r.axis.get o)

variable {o : MountOptions} {r : Restriction}

/-- Nothing is asked for and opened at once. -/
theorem opens_of_imposes (h : o.imposes r = true) : o.opens r = false := by
  have haccess : ∀ v : Access, v.isReadonly = true → v.isWritable = false := by
    intro v
    cases v <;> decide
  have hallowance : ∀ v : Allowance, decide (v = .denied) = true →
      decide (v = .allowed) = false := by
    intro v
    cases v <;> decide
  cases r with
  | readonly => exact haccess o.access h
  | nosuid => exact hallowance o.suid h
  | nodev => exact hallowance o.dev h
  | noexec => exact hallowance o.exec h

theorem flags_eq (o : MountOptions) :
    o.flags = Restriction.union o.imposes ||| o.atime.flag ||| o.sync.flag := by
  obtain ⟨_, _, exec, dev, suid, _, _, _, _, _, _⟩ := o
  cases exec <;> cases dev <;> cases suid <;> rfl

theorem relaxed_eq (o : MountOptions) : o.relaxed = Restriction.union o.opens := by
  obtain ⟨_, _, exec, dev, suid, _, _, _, _, _, _⟩ := o
  cases exec <;> cases dev <;> cases suid <;> rfl

theorem attrs_eq (o : MountOptions) : o.attrs = Restriction.union o.imposes ||| o.atime.attr := by
  obtain ⟨_, _, exec, dev, suid, _, _, _, _, _, _⟩ := o
  cases exec <;> cases dev <;> cases suid <;> rfl

theorem clearedAttrs_eq (o : MountOptions) :
    o.clearedAttrs
      = (if o.atime = .unset then 0 else MountAttrs.atimeField) ||| Restriction.union o.opens := by
  obtain ⟨_, _, exec, dev, suid, _, _, _, _, _, _⟩ := o
  unfold clearedAttrs Restriction.union
  simp only [BitVec.or_assoc]
  cases exec <;> cases dev <;> cases suid <;> rfl

theorem flags_includes : o.flags.includes r.flag = o.imposes r := by
  have hatime : o.atime.flag.includes r.flag = false := by cases o.atime <;> cases r <;> decide
  have hsync : o.sync.flag.includes r.flag = false := by cases o.sync <;> cases r <;> decide
  rw [flags_eq, r.flag_isBit.includes_or, r.flag_isBit.includes_or, hatime, hsync,
    Restriction.includes_union, Bool.or_false, Bool.or_false]

theorem relaxed_includes : o.relaxed.includes r.flag = o.opens r := by
  rw [relaxed_eq, Restriction.includes_union]

theorem attrs_includes_attr : MountFlags.includes o.attrs r.attr = o.imposes r := by
  have hatime : MountFlags.includes o.atime.attr r.flag = false := by
    cases o.atime <;> cases r <;> decide
  rw [attrs_eq, r.attr_eq, r.flag_isBit.includes_or, hatime, Restriction.includes_union,
    Bool.or_false]

theorem clearedAttrs_includes_attr : MountFlags.includes o.clearedAttrs r.attr = o.opens r := by
  have hfield : MountFlags.includes MountAttrs.atimeField r.flag = false := by cases r <;> decide
  have hcleared : MountFlags.includes
      (if o.atime = .unset then 0 else MountAttrs.atimeField) r.flag = false := by
    split_ifs
    · exact r.flag_isBit.includes_none
    · exact hfield
  rw [clearedAttrs_eq, r.attr_eq, r.flag_isBit.includes_or, hcleared, Restriction.includes_union,
    Bool.false_or]

/-- Whenever a mode is asked for, the whole field is cleared. -/
theorem clearedAttrs_includes_atimeField (h : o.atime ≠ .unset) :
    MountFlags.includes o.clearedAttrs MountAttrs.atimeField = true := by
  rw [clearedAttrs_eq, if_neg h]
  exact MountFlags.includes_or_left (by decide)

/-- Options that need no remount say nothing about any flag. -/
structure Silent (o : MountOptions) : Prop where
  imposes : o.imposes = fun _ => false
  opens : o.opens = fun _ => false
  atime : o.atime = .unset
  sync : o.sync = .unset

theorem silent_of_skipped (h : o.needsRemount = false) : o.Silent := by
  simp only [needsRemount, relaxesAny, Bool.or_eq_false_iff, bne_eq_false_iff_eq,
    beq_eq_false_iff_ne] at h
  obtain ⟨⟨⟨⟨⟨⟨hreadonly, ⟨⟨hwritable, hsuid⟩, hdev⟩, hexec⟩, hatime⟩, hnoexec⟩, hnodev⟩,
    hnosuid⟩, hsync⟩ := h
  refine ⟨funext fun r => ?_, funext fun r => ?_, hatime, hsync⟩
  · cases r with
    | readonly => exact hreadonly
    | nosuid => exact decide_eq_false hnosuid
    | nodev => exact decide_eq_false hnodev
    | noexec => exact decide_eq_false hnoexec
  · cases r with
    | readonly => exact hwritable
    | nosuid => exact decide_eq_false hsuid
    | nodev => exact decide_eq_false hdev
    | noexec => exact decide_eq_false hexec

theorem Silent.flags (h : o.Silent) : o.flags = 0 := by
  rw [flags_eq, h.imposes, h.atime, h.sync]
  decide

theorem Silent.relaxed (h : o.Silent) : o.relaxed = 0 := by
  rw [relaxed_eq, h.opens]
  decide

end MountOptions

end ContainerMounts
