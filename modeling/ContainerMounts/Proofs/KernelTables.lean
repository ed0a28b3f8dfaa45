/-
ContainerMounts.Proofs.KernelTables — a table of ids as the kernel reads it.

The kernel is handed a table as text, a line of three decimal numbers for each
range. Its reading is written down on its own: `Extent.ofText?` takes the text
apart, and `Extent.Shows` says which id a line presents as which. A text spells a
table when both come out as the table has them (`IdMapping.SpelledBy`).

The text that is written for a table is read from the inside out: a number
(`decimal?_toDigits`), a line (`ofLine?_line`), the text (`ofText?_kernelText`).

Main statement: the text of an accepted table spells it, and what an id-mapped bind
writes to the two files of the helper process spells the two tables of the mapping,
each in its own file (`kernelText_spells`).
-/
import ContainerMounts.Proofs.AttachProtocol
import ContainerMounts.Proofs.PresentedIds
import ContainerMounts.Proofs.TextPieces

namespace ContainerMounts

/-! ## The kernel's reading -/

/-- A line of a table: the first id inside, the first id outside, the number of
ids. -/
structure Extent where
  inside : Nat
  outside : Nat
  count : Nat
  deriving DecidableEq, Repr

namespace Extent

/-- The number that is written in decimal digits. -/
def decimal? (digits : List Char) : Option Nat :=
  if !digits.isEmpty && digits.all Char.isDigit then some (Nat.ofDigitChars 10 digits 0)
  else none

/-- The three numbers of a line, with a space between neighbours. -/
def ofLine? (line : List Char) : Option Extent :=
  match pieces ' ' line with
  | [inside, outside, count] => do
      return ⟨← decimal? inside, ← decimal? outside, ← decimal? count⟩
  | _ => none

/-- The extents of a text, line by line. -/
def ofText? (text : String) : Option (List Extent) := (Text.lines text.toList).mapM ofLine?

/-- The extent presents the id as this one: with every step inside goes a step
outside. -/
def Shows (e : Extent) (id host : Nat) : Prop :=
  ∃ k < e.count, id = e.inside + k ∧ host = e.outside + k

end Extent

/-- The extent that a range is meant as. -/
def IdRange.extent (r : IdRange) : Extent := ⟨r.container.toNat, r.host.toNat, r.size.toNat⟩

/-- The text is read as this table: as its ranges in order, and these present an id
just as the table does. -/
structure IdMapping.SpelledBy (table : IdMapping) (text : String) : Prop where
  extents : Extent.ofText? text = some (table.ranges.map (·.extent))
  shows_iff : ∀ (id : UInt32) (host : Nat),
    (∃ e ∈ table.ranges.map (·.extent), e.Shows id.toNat host)
      ↔ (table.hostId? id).map (·.toNat) = some host

/-! ## Numbers -/

section Digits

variable {n : Nat} {c : Char}

theorem isDigit_of_mem_toDigits (h : c ∈ Nat.toDigits 10 n) : c.isDigit = true :=
  Nat.isDigit_of_mem_toDigits (by decide) (by decide) h

/-- What ends a number is no part of it. -/
theorem notMem_toDigits (h : c.isDigit = false) : c ∉ Nat.toDigits 10 n := fun hmem => by
  rw [isDigit_of_mem_toDigits hmem] at h
  exact absurd h (by decide)

/-- A number is read as it was written. -/
theorem Extent.decimal?_toDigits (n : Nat) : Extent.decimal? (Nat.toDigits 10 n) = some n := by
  have hne : (Nat.toDigits 10 n).isEmpty = false := by simp
  have hdigits : (Nat.toDigits 10 n).all Char.isDigit = true :=
    List.all_eq_true.2 fun c hc => isDigit_of_mem_toDigits hc
  rw [Extent.decimal?, if_pos (by simp [hne, hdigits]), Nat.ofDigitChars_ten_toDigits]

end Digits

/-! ## Lines -/

namespace IdRange

/-- The range's line, without its end. -/
def line (r : IdRange) : List Char :=
  joinPieces ' ' [Nat.toDigits 10 r.container.toNat, Nat.toDigits 10 r.host.toNat,
    Nat.toDigits 10 r.size.toNat]

variable {r : IdRange}

theorem mem_line {c : Char} (h : c ∈ r.line) : c = ' ' ∨ c.isDigit = true := by
  rcases mem_joinPieces h with rfl | ⟨digits, hdigits, hc⟩
  · exact .inl rfl
  · simp only [List.mem_cons, List.not_mem_nil, or_false] at hdigits
    rcases hdigits with rfl | rfl | rfl <;> exact .inr (isDigit_of_mem_toDigits hc)

theorem notMem_line {c : Char} (hspace : c ≠ ' ') (hdigit : c.isDigit = false) : c ∉ r.line :=
  fun hmem => by
    rcases mem_line hmem with rfl | h
    · exact hspace rfl
    · rw [h] at hdigit
      exact absurd hdigit (by decide)

/-- A line is read as its range. -/
theorem ofLine?_line (r : IdRange) : Extent.ofLine? r.line = some r.extent := by
  have hpieces : pieces ' ' r.line = [Nat.toDigits 10 r.container.toNat,
      Nat.toDigits 10 r.host.toNat, Nat.toDigits 10 r.size.toNat] := by
    refine pieces_joinPieces (by simp) fun digits hdigits => ?_
    simp only [List.mem_cons, List.not_mem_nil, or_false] at hdigits
    rcases hdigits with rfl | rfl | rfl <;> exact notMem_toDigits rfl
  rw [Extent.ofLine?, hpieces]
  simp only [Extent.decimal?_toDigits]
  rfl

theorem stripReturn_line (r : IdRange) : Text.stripReturn r.line = r.line :=
  Text.stripReturn_eq_self fun h =>
    notMem_line (by decide) (by decide) (List.mem_of_getLast? h)

theorem toList_rangeLine (r : IdRange) :
    (IdMapping.rangeLine r).toList = r.line ++ ['\n'] := by
  simp [IdMapping.rangeLine, line, joinPieces, Nat.toList_repr]

end IdRange

/-- A range's extent presents the ids that the range holds. -/
theorem IdRange.extent_shows_iff {r : IdRange} {id : UInt32} {host : Nat} :
    r.extent.Shows id.toNat host ↔ r.Holds id ∧ host = r.presented id := by
  rw [IdRange.holds_iff, IdRange.presented]
  constructor
  · rintro ⟨k, hk, hid, rfl⟩
    simp only [IdRange.extent] at hk hid ⊢
    omega
  · rintro ⟨⟨hfrom, hto⟩, rfl⟩
    refine ⟨id.toNat - r.container.toNat, ?_, ?_, rfl⟩ <;> simp only [IdRange.extent] <;> omega

/-! ## Tables -/

namespace IdMapping

variable {ranges : List IdRange} {table : IdMapping} {id : UInt32} {host : Nat}

theorem mapM_ofLine? (ranges : List IdRange) :
    (ranges.map (·.line)).mapM Extent.ofLine? = some (ranges.map (·.extent)) := by
  induction ranges with
  | nil => rfl
  | cons r ranges ih =>
      rw [List.map_cons, List.mapM_cons, r.ofLine?_line, ih]
      rfl

/-- The text is read as the table's ranges, in order. -/
theorem ofText?_kernelText (table : IdMapping) :
    Extent.ofText? table.kernelText = some (table.ranges.map (·.extent)) := by
  have htext : table.kernelText.toList
      = (table.ranges.map (·.line)).flatMap fun line => line ++ ['\n'] := by
    simp [kernelText, String.toList_join, List.flatMap_def, IdRange.toList_rangeLine,
      Function.comp_def]
  have hlines : Text.lines table.kernelText.toList = table.ranges.map (·.line) := by
    rw [htext, Text.lines_terminated, List.map_map]
    · exact List.map_congr_left fun r _ => r.stripReturn_line
    · intro line hline
      obtain ⟨r, -, rfl⟩ := List.mem_map.1 hline
      exact IdRange.notMem_line (by decide) (by decide)
  rw [Extent.ofText?, hlines, mapM_ofLine?]

/-- Only an id of the id space is presented, so that nothing is lost in 32 bits. -/
theorem Sound.shows_iff (h : Sound ranges) : (∃ e ∈ ranges.map (·.extent), e.Shows id.toNat host)
    ↔ ((⟨ranges⟩ : IdMapping).hostId? id).map (·.toNat) = some host := by
  rw [Option.map_eq_some_iff]
  constructor
  · rintro ⟨e, he, hshows⟩
    obtain ⟨r, hr, rfl⟩ := List.mem_map.1 he
    obtain ⟨hid, rfl⟩ := IdRange.extent_shows_iff.1 hshows
    obtain ⟨answer, hanswer⟩ := h.exists_hostId? hr hid
    obtain ⟨r', hr', hid', hvalue⟩ := h.hostId?_iff.1 hanswer
    rw [h.holder_unique hr' hr hid' hid] at hvalue
    exact ⟨answer, hanswer, hvalue⟩
  · rintro ⟨answer, hanswer, rfl⟩
    obtain ⟨r, hr, hid, hvalue⟩ := h.hostId?_iff.1 hanswer
    exact ⟨r.extent, List.mem_map_of_mem hr, IdRange.extent_shows_iff.2 ⟨hid, hvalue⟩⟩

/-- A table that was accepted is spelled by its text. -/
theorem spelledBy_kernelText (h : ofRanges ranges = .ok table) :
    table.SpelledBy table.kernelText := by
  obtain ⟨rfl, hsound⟩ := ofRanges_eq_ok.1 h
  exact ⟨ofText?_kernelText _, fun id host => hsound.shows_iff⟩

end IdMapping

/-! ## What is written -/

/-- What a file of the helper process is to hold. -/
def OwnerMapping.content (mapping : OwnerMapping) : MapFile → String
  | .uidMap => mapping.uid.kernelText
  | .setgroups => "deny"
  | .gidMap => mapping.gid.kernelText

section Writes

variable {source real : Path} {target : Spot} {recursive : Bool} {mapping : OwnerMapping}
  {set clear : MountAttrs} {file : MapFile} {text : String} {tried : List Attempt}

theorem write_mem_attachCalls_iff :
    .write file text ∈ attachCalls source target recursive mapping set clear real
      ↔ text = mapping.content file := by
  cases file <;> simp [attachCalls, OwnerMapping.content]

/-- Whatever is written, also in an attempt that was interrupted, is what the file
is to hold. -/
theorem Proceeds.written {complete : Bool} {event : Event}
    (h : Proceeds (attachSteps source target recursive mapping set clear real) tried complete)
    (hevent : event ∈ tried.filterMap Attempt.event?) (hwrite : event.call = .write file text) :
    text = mapping.content file := by
  have hmade := h.call_mem hevent
  rw [attachSteps_calls, hwrite] at hmade
  exact write_mem_attachCalls_iff.1 hmade

/-- Where all steps have passed, each table was accepted in its file. -/
theorem Proceeds.table_accepted
    (h : Proceeds (attachSteps source target recursive mapping set clear real) tried true)
    (hfile : file ≠ .setgroups) :
    ⟨.write file (mapping.content file), none⟩ ∈ tried.filterMap Attempt.event? := by
  have hstep : ⟨file.callKind, some (.write file (mapping.content file))⟩ ∈ passedSteps tried := by
    rw [h.all_passed]
    cases file <;> simp [attachSteps, userNamespaceSteps, MapFile.callKind, OwnerMapping.content]
  exact accepted_of_mem_passedSteps hstep rfl fun _ => CallStep.tolerates_table hfile

end Writes

/-- **The kernel gets the tables that the program reasons with.** The text of an
accepted table is read as its ranges in order, which present each id just as the
table does. However an id-mapped bind ends, whatever it has written as the table of
users spells the mapping's table of users, and the same goes for groups; and a bind
that succeeds has had both accepted. -/
theorem kernelText_spells :
    (∀ ranges table, IdMapping.ofRanges ranges = .ok table →
      table.ranges = ranges ∧ table.SpelledBy table.kernelText)
    ∧ ∀ (uid gid : List IdRange) (mapping : OwnerMapping) (source : Path) (target : Spot)
        (recursive : Bool) (set clear : MountAttrs) (host : Host) (m : Machine),
      IdMapping.ofRanges uid = .ok mapping.uid → IdMapping.ofRanges gid = .ok mapping.gid →
      let run := (Run.bindIdMapped source target recursive mapping set clear).result host m
      ∃ moments, run.2.log = m.log ++ moments
        ∧ (∀ moment ∈ moments, ∀ text,
            (moment.event.call = .write .uidMap text → mapping.uid.SpelledBy text)
            ∧ (moment.event.call = .write .gidMap text → mapping.gid.SpelledBy text))
        ∧ (run.1 = .ok () →
            (∃ moment ∈ moments, ∃ text, moment.event = ⟨.write .uidMap text, none⟩)
            ∧ ∃ moment ∈ moments, ∃ text, moment.event = ⟨.write .gidMap text, none⟩) := by
  refine ⟨fun ranges table h => ⟨?_, IdMapping.spelledBy_kernelText h⟩, ?_⟩
  · rw [(IdMapping.ofRanges_eq_ok.1 h).1]
  · intro uid gid mapping source target recursive set clear host m huid hgid run
    obtain ⟨real, hreal⟩ := exists_real m.tree source
    have hfollows : Follows host m _ _ :=
      bindIdMapped_follows target recursive mapping set clear hreal
    obtain ⟨tried, hmade, hproceeds⟩ := hfollows
    refine ⟨_, hmade.log, fun moment hmoment text => ?_, fun hok => ?_⟩
    · obtain ⟨event, hevent, rfl⟩ := List.mem_map.1 hmoment
      refine ⟨fun hwrite => ?_, fun hwrite => ?_⟩
      · rw [hproceeds.written hevent hwrite]
        exact IdMapping.spelledBy_kernelText huid
      · rw [hproceeds.written hevent hwrite]
        exact IdMapping.spelledBy_kernelText hgid
    · have hcomplete : Proceeds _ tried true := outcome_isOk_iff.2 hok ▸ hproceeds
      have haccepted : ∀ file ≠ MapFile.setgroups, ∃ moment ∈
          (tried.filterMap Attempt.event?).map (⟨m.tree, ·⟩ : Event → Moment),
          ∃ text, moment.event = ⟨.write file text, none⟩ := fun file hfile =>
        ⟨_, List.mem_map_of_mem (hcomplete.table_accepted hfile), _, rfl⟩
      exact ⟨haccepted .uidMap (by decide), haccepted .gidMap (by decide)⟩

/-- Two ranges, written twice because the first opening of the file is interrupted. -/
theorem kernelText_spells_two_ranges :
    let uid : List IdRange := [⟨0, 2, 10⟩, ⟨100, 1000, 5⟩]
    let gid : List IdRange := [⟨0, 0, 1⟩]
    let run := (Run.bindIdMapped ⟨[slash, 0x73]⟩ (.at ⟨[slash, 0x72]⟩) false ⟨⟨uid⟩, ⟨gid⟩⟩ 0
      0).result (Sample.refusing .uidMap .interrupted) { tree := Sample.sourced }
    IdMapping.ofRanges uid = .ok ⟨uid⟩ ∧ IdMapping.ofRanges gid = .ok ⟨gid⟩ ∧ run.1 = .ok ()
      ∧ (⟨uid⟩ : IdMapping).kernelText = "0 2 10\n100 1000 5\n"
      ∧ (⟨uid⟩ : IdMapping).SpelledBy "0 2 10\n100 1000 5\n"
      ∧ ∃ moment ∈ run.2.log, ∃ text, moment.event = ⟨.write .uidMap text, none⟩
          ∧ (⟨uid⟩ : IdMapping).SpelledBy text := by
  intro uid gid run
  have huid : IdMapping.ofRanges uid = .ok ⟨uid⟩ := rfl
  have hgid : IdMapping.ofRanges gid = .ok ⟨gid⟩ := rfl
  have hok : run.1 = .ok () := by decide +kernel
  have htext : (⟨uid⟩ : IdMapping).kernelText = "0 2 10\n100 1000 5\n" := by decide +kernel
  obtain ⟨moments, hlog, hspelled, haccepted⟩ := kernelText_spells.2 uid gid ⟨⟨uid⟩, ⟨gid⟩⟩
    ⟨[slash, 0x73]⟩ (.at ⟨[slash, 0x72]⟩) false 0 0 (Sample.refusing .uidMap .interrupted)
    { tree := Sample.sourced } huid hgid
  obtain ⟨⟨moment, hmoment, text, hevent⟩, -⟩ := haccepted hok
  refine ⟨huid, hgid, hok, htext, htext ▸ (kernelText_spells.1 uid ⟨uid⟩ huid).2, moment, ?_, text,
    hevent, (hspelled moment hmoment text).1 (by rw [hevent])⟩
  exact hlog ▸ List.mem_append_right _ hmoment

end ContainerMounts
