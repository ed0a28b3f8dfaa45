/-
ContainerMounts.Proofs.PresentedIds — what a table makes of an id.

A table reads an id by the first of its ranges that holds it. The ranges of a
sound table share no id inside, so it does not matter which range is asked first:
an id is presented as any range that holds it says (`IdMapping.Sound.hostId?_iff`).
The ranges share no id outside either, so no two ids are presented as one. A
range that fits into the id space on the host's side has room for every id it
presents, so the sum that is the answer is never out of the id space.

Main statement: `IdMapping.ofRanges_presents`.
-/
import ContainerMounts.Proofs.OwnerTables
import Mathlib.Data.List.Pairwise

namespace ContainerMounts

/-! ## One range -/

namespace IdRange

variable {r other : IdRange} {id id' host : UInt32}

/-- The id is one of the range's on the container's side. -/
def Holds (r : IdRange) (id : UInt32) : Prop := r.containerSpan.Holds id.toNat

/-- What the range presents the id as, before the sum is put into 32 bits. -/
def presented (r : IdRange) (id : UInt32) : Nat := r.host.toNat + (id.toNat - r.container.toNat)

instance : Std.Symm IdRange.Apart := ⟨fun _ _ => Apart.symm⟩

theorem holds_iff : r.Holds id
    ↔ r.container.toNat ≤ id.toNat ∧ id.toNat < r.container.toNat + r.size.toNat :=
  Iff.rfl

theorem toNat_sub_container (h : r.container ≤ id) :
    (id - r.container).toNat = id.toNat - r.container.toNat :=
  UInt32.toNat_sub_of_le _ _ h

/-- The range is asked in 32 bits. -/
theorem holds_iff_offset : r.Holds id ↔ r.container ≤ id ∧ id - r.container < r.size := by
  rw [holds_iff, UInt32.le_iff_toNat_le]
  refine and_congr_right fun hfrom => ?_
  rw [UInt32.lt_iff_toNat_lt, toNat_sub_container (UInt32.le_iff_toNat_le.2 hfrom)]
  omega

theorem Fits.presented_lt (h : r.Fits) (hid : r.Holds id) : r.presented id < idSpace := by
  have hhost := h.host
  have hheld := holds_iff.1 hid
  unfold presented
  omega

/-- The sum is not cut off. -/
theorem Fits.hostId?_eq_some (h : r.Fits) :
    r.hostId? id = some host ↔ r.Holds id ∧ host.toNat = r.presented id := by
  rw [hostId?, holds_iff_offset]
  by_cases hid : r.container ≤ id ∧ id - r.container < r.size
  · have hsum : (r.host + (id - r.container)).toNat = r.presented id := by
      rw [UInt32.toNat_add, toNat_sub_container hid.1]
      exact Nat.mod_eq_of_lt (h.presented_lt (holds_iff_offset.2 hid))
    rw [if_pos hid, Option.some.injEq, ← UInt32.toNat_inj, hsum]
    exact ⟨fun heq => ⟨hid, heq.symm⟩, fun h => h.2.symm⟩
  · rw [if_neg hid]
    exact iff_of_false nofun fun h => hid h.1

/-- The answer is one of the range's ids on the host's side. -/
theorem hostSpan_holds (hid : r.Holds id) : r.hostSpan.Holds (r.presented id) := by
  have hheld := holds_iff.1 hid
  simp only [IdSpan.Holds, hostSpan, presented]
  omega

theorem presented_inj (hid : r.Holds id) (hid' : r.Holds id')
    (h : r.presented id = r.presented id') : id = id' := by
  have hheld := holds_iff.1 hid
  have hheld' := holds_iff.1 hid'
  unfold presented at h
  rw [← UInt32.toNat_inj]
  omega

end IdRange

/-! ## Sound tables -/

namespace IdMapping

variable {ranges ranges' : List IdRange} {r r' : IdRange} {id id' host : UInt32}

/-- An id is in one range at most. -/
theorem Sound.holder_unique (h : Sound ranges) (hr : r ∈ ranges) (hr' : r' ∈ ranges)
    (hid : r.Holds id) (hid' : r'.Holds id) : r = r' := by
  by_contra hne
  exact (h.apart.forall hr hr' hne).container id.toNat ⟨hid, hid'⟩

/-- A table presents an id as any range says that holds it. -/
theorem Sound.hostId?_iff (h : Sound ranges) : (⟨ranges⟩ : IdMapping).hostId? id = some host
    ↔ ∃ r ∈ ranges, r.Holds id ∧ host.toNat = r.presented id := by
  constructor
  · intro hfound
    obtain ⟨r, hr, hanswer⟩ := List.exists_of_findSome?_eq_some hfound
    exact ⟨r, hr, (h.fits r hr).hostId?_eq_some.1 hanswer⟩
  · rintro ⟨r, hr, hid, hhost⟩
    have hanswer : r.hostId? id = some host := (h.fits r hr).hostId?_eq_some.2 ⟨hid, hhost⟩
    have hsome : (ranges.findSome? (·.hostId? id)).isSome :=
      List.findSome?_isSome_iff.2 ⟨r, hr, by rw [hanswer]; rfl⟩
    obtain ⟨found, hfound⟩ := Option.isSome_iff_exists.1 hsome
    obtain ⟨first, hfirst, hfirstAnswer⟩ := List.exists_of_findSome?_eq_some hfound
    have hheld := ((h.fits first hfirst).hostId?_eq_some.1 hfirstAnswer).1
    obtain rfl := h.holder_unique hfirst hr hheld hid
    rw [hostId?, hfound, ← hfirstAnswer, hanswer]

theorem Sound.perm (h : Sound ranges) (hperm : ranges.Perm ranges') : Sound ranges' :=
  ⟨fun r hr => h.fits r (hperm.mem_iff.2 hr), (hperm.pairwise_iff IdRange.Apart.symm).1 h.apart⟩

/-- A range that holds an id has an answer for it. -/
theorem Sound.exists_hostId? (h : Sound ranges) (hr : r ∈ ranges) (hid : r.Holds id) :
    ∃ host, (⟨ranges⟩ : IdMapping).hostId? id = some host := by
  have hlt := (h.fits r hr).presented_lt hid
  exact ⟨.ofNat (r.presented id), h.hostId?_iff.2 ⟨r, hr, hid, UInt32.toNat_ofNat_of_lt' hlt⟩⟩

/-- Two ids are never presented as one. -/
theorem Sound.hostId?_inj (h : Sound ranges) (hid : (⟨ranges⟩ : IdMapping).hostId? id = some host)
    (hid' : (⟨ranges⟩ : IdMapping).hostId? id' = some host) : id = id' := by
  obtain ⟨r, hr, hheld, hhost⟩ := h.hostId?_iff.1 hid
  obtain ⟨r', hr', hheld', hhost'⟩ := h.hostId?_iff.1 hid'
  have hspan : r.hostSpan.Holds host.toNat := hhost ▸ IdRange.hostSpan_holds hheld
  have hspan' : r'.hostSpan.Holds host.toNat := hhost' ▸ IdRange.hostSpan_holds hheld'
  obtain rfl : r = r' := by
    by_contra hne
    exact (h.apart.forall hr hr' hne).host host.toNat ⟨hspan, hspan'⟩
  exact IdRange.presented_inj hheld hheld' (hhost.symm.trans hhost')

/-- What a table makes of ids: it presents the ids of its ranges, each as one of the
id space that no other id is presented as. -/
structure Presents (ranges : List IdRange) (table : IdMapping) : Prop where
  covers : ∀ id, (∃ host, table.hostId? id = some host) ↔ ∃ r ∈ ranges, r.Holds id
  /-- The sum of a range's first id and an offset is the answer, and it is an id. -/
  sum : ∀ r ∈ ranges, ∀ id, r.Holds id →
    r.presented id ≤ UInt32.size - 1
      ∧ ∀ host, table.hostId? id = some host ↔ host.toNat = r.presented id
  injective : ∀ id id' host, table.hostId? id = some host → table.hostId? id' = some host →
    id = id'

theorem Sound.presents (h : Sound ranges) : Presents ranges ⟨ranges⟩ := by
  refine ⟨fun id => ?_, fun r hr id hid => ⟨?_, fun host => ?_⟩, fun id id' host => h.hostId?_inj⟩
  · constructor
    · rintro ⟨host, hhost⟩
      obtain ⟨r, hr, hid, -⟩ := h.hostId?_iff.1 hhost
      exact ⟨r, hr, hid⟩
    · rintro ⟨r, hr, hid⟩
      exact h.exists_hostId? hr hid
  · exact Nat.le_sub_one_of_lt ((h.fits r hr).presented_lt hid)
  · rw [h.hostId?_iff]
    constructor
    · rintro ⟨r', hr', hid', hhost⟩
      rw [hhost, h.holder_unique hr' hr hid' hid]
    · exact fun hhost => ⟨r, hr, hid, hhost⟩

/-- The order of the ranges does not matter. -/
theorem Sound.hostId?_perm (h : Sound ranges) (hperm : ranges.Perm ranges') (id : UInt32) :
    (⟨ranges'⟩ : IdMapping).hostId? id = (⟨ranges⟩ : IdMapping).hostId? id := by
  ext host
  rw [(h.perm hperm).hostId?_iff, h.hostId?_iff]
  exact exists_congr fun r => and_congr_left' hperm.mem_iff.symm

/-- **Ranges that make a table make a sound one.** A list of ranges is accepted just
when every range holds ids and stays in the id space, and no two share an id on
either side. Every accepted table then presents the ids of its ranges and no others;
no sum runs out of the id space; no two ids are presented as one; and the ranges may
be declared in any order. -/
theorem ofRanges_presents (ranges : List IdRange) :
    ((∃ table, ofRanges ranges = .ok table) ↔
      (∀ r ∈ ranges, 0 < r.size.toNat ∧ r.container.toNat + r.size.toNat ≤ UInt32.size
        ∧ r.host.toNat + r.size.toNat ≤ UInt32.size) ∧ ranges.Pairwise IdRange.Apart)
    ∧ ∀ table, ofRanges ranges = .ok table →
      Presents ranges table
      ∧ ∀ ranges', ranges.Perm ranges' → ∃ table', ofRanges ranges' = .ok table'
        ∧ ∀ id, table'.hostId? id = table.hostId? id := by
  constructor
  · constructor
    · rintro ⟨table, htable⟩
      obtain ⟨-, hsound⟩ := ofRanges_eq_ok.1 htable
      exact ⟨fun r hr => ⟨(hsound.fits r hr).positive, (hsound.fits r hr).container,
        (hsound.fits r hr).host⟩, hsound.apart⟩
    · rintro ⟨hfits, hapart⟩
      refine ⟨⟨ranges⟩, ofRanges_eq_ok.2 ⟨rfl, fun r hr => ?_, hapart⟩⟩
      obtain ⟨hpositive, hcontainer, hhost⟩ := hfits r hr
      exact ⟨hpositive, hcontainer, hhost⟩
  · intro table htable
    obtain ⟨rfl, hsound⟩ := ofRanges_eq_ok.1 htable
    refine ⟨hsound.presents, fun ranges' hperm => ⟨⟨ranges'⟩, ?_, hsound.hostId?_perm hperm⟩⟩
    exact ofRanges_eq_ok.2 ⟨rfl, hsound.perm hperm⟩

/-- Two ranges that reach the end of the id space, one on each side, in either
order. -/
theorem ofRanges_presents_ends :
    let low : IdRange := ⟨0, 0xfffffff0, 16⟩
    let high : IdRange := ⟨0xffffff00, 1000, 256⟩
    ofRanges [low, high] = .ok ⟨[low, high]⟩ ∧ Presents [low, high] ⟨[low, high]⟩
      ∧ ∃ table, ofRanges [high, low] = .ok table
        ∧ ∀ id, table.hostId? id = (⟨[low, high]⟩ : IdMapping).hostId? id := by
  intro low high
  have hranges : ofRanges [low, high] = .ok ⟨[low, high]⟩ := rfl
  obtain ⟨hpresents, hperm⟩ := (ofRanges_presents [low, high]).2 _ hranges
  exact ⟨hranges, hpresents, hperm [high, low] (.swap ..)⟩

end IdMapping

end ContainerMounts
