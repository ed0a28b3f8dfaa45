/-
ContainerMounts.Proofs.MountinfoText — the reader of the kernel's table of
mounts undoes the kernel's formatting.

The formatting is written down first. A byte that a field cannot hold as
it stands is written as a backslash and three octal digits (`escape`);
which bytes these are is up to the kernel (`Escapes`), as long as blanks,
line feeds and the backslash are among them and what is left is text. An
`Entry` is a mount with everything else that stands on its line, and a
`Line` is an entry or a blank line.

Then the reader, in the order it works: the lines of the text, the dash
that separates the two halves of a line (`cutAt?_dash`), the fields of a
half (`pieces_joinPieces`), the bytes of a field (`unescape_escape`), the
options of a field (`fieldOptions_joinPieces`).

Main statement: the records read from any list of lines are the mounts of
its entries, in order (`parse_printed`).
-/
import ContainerMounts.MountTable.Mountinfo
import ContainerMounts.Proofs.Paths
import ContainerMounts.Proofs.Utf8RoundTrip

namespace ContainerMounts.Mountinfo

/-! ## The formatting -/

/-- The last octal digit of the number. -/
def octalDigit (n : Nat) : UInt8 := UInt8.ofNat (n % 8 + 0x30)

/-- The byte as a backslash and three octal digits. -/
def octalEscape (b : UInt8) : List UInt8 :=
  [0x5C, octalDigit (b.toNat / 64), octalDigit (b.toNat / 8), octalDigit b.toNat]

/-- The bytes with those in `escaped` written as escapes. -/
def escape (escaped : UInt8 → Bool) (bytes : List UInt8) : List UInt8 :=
  bytes.flatMap fun b => if escaped b then octalEscape b else [b]

/-- A choice of the bytes that are written as escapes in a field. It holds
blanks and backslashes, and of the bytes from 0x80 on none or all; none
only when the field is text. -/
structure Escapes (bytes : List UInt8) where
  escaped : UInt8 → Bool
  space : escaped 0x20 = true
  tab : escaped 0x09 = true
  lineFeed : escaped 0x0A = true
  backslash : escaped 0x5C = true
  high : (∀ b, 0x80 ≤ b → escaped b = true)
    ∨ (∀ b, 0x80 ≤ b → escaped b = false) ∧ Utf8.Spell bytes

/-- Text needs no more escapes than those for blanks and backslashes. -/
def Escapes.ofText (text : String) : Escapes (Utf8.encode text.toList) where
  escaped b := b == 0x20 || b == 0x09 || b == 0x0A || b == 0x5C
  space := rfl
  tab := rfl
  lineFeed := rfl
  backslash := rfl
  high := .inr ⟨fun b hb => by grind, text.toList, rfl⟩

/-- The field as it stands in the text. -/
def Escapes.text {bytes : List UInt8} (e : Escapes bytes) : List Char :=
  (Utf8.lossy (escape e.escaped bytes)).toList

/-- The word has no blanks. -/
def NoBlank (word : String) : Prop := ∀ c ∈ word.toList, Text.isBlank c = false

instance (word : String) : Decidable (NoBlank word) :=
  decidable_of_iff (word.toList.all (!Text.isBlank ·) = true) (by simp [NoBlank])

/-- The word has no blanks and is not the dash between the halves of a line. -/
structure IsWord (word : String) : Prop where
  ne_dash : word ≠ "-"
  no_blank : NoBlank word

instance (word : String) : Decidable (IsWord word) :=
  decidable_of_iff (word ≠ "-" ∧ NoBlank word)
    ⟨fun ⟨h1, h2⟩ => ⟨h1, h2⟩, fun ⟨h1, h2⟩ => ⟨h1, h2⟩⟩

/-- The options of a set, listed in any order. -/
structure Lists (set listed : List String) : Prop where
  sorted : set.Pairwise (· < ·)
  perm : listed.Perm set
  ne_empty : ∀ o ∈ set, o ≠ ""
  no_comma : ∀ o ∈ set, ',' ∉ o.toList
  no_blank : ∀ o ∈ set, NoBlank o

/-- The options as a field. -/
def optionField (listed : List String) : List Char := joinPieces ',' (listed.map String.toList)

/-- A mount and what else stands on its line. -/
structure Entry where
  mount : MountRecord
  id : String
  parent : String
  device : String
  /-- The part of the filesystem that was mounted. -/
  root : List UInt8
  /-- The optional fields. -/
  optional : List String
  /-- The options of the mount and of the filesystem, as they are listed. -/
  vfsListed : List String
  fsListed : List String
  rootEscapes : Escapes root
  targetEscapes : Escapes mount.target.bytes
  sourceEscapes : Escapes (Utf8.encode mount.source.toList)
  words : ∀ w ∈ [id, parent, device] ++ optional, IsWord w
  root_ne_dash : root ≠ [0x2D]
  target_absolute : mount.target.isAbsolute = true
  fsType_no_blank : NoBlank mount.fsType
  vfs_lists : Lists mount.vfsOptions vfsListed
  vfs_ne_dash : vfsListed ≠ ["-"]
  fs_lists : Lists mount.fsOptions fsListed

namespace Entry

variable (e : Entry)

/-- The fields before the dash. -/
def head : List (List Char) :=
  [e.id.toList, e.parent.toList, e.device.toList, e.rootEscapes.text, e.targetEscapes.text,
    optionField e.vfsListed] ++ e.optional.map String.toList

/-- The fields after the dash. -/
def tail : List (List Char) :=
  [e.mount.fsType.toList, e.sourceEscapes.text, optionField e.fsListed]

/-- The line of the mount. -/
def line : List Char := joinPieces ' ' (e.head ++ ['-'] :: e.tail)

end Entry

/-- A line of the text. -/
inductive Line where
  /-- A line of blanks, if it holds anything. -/
  | blank (text : List Char) (no_feed : '\n' ∉ text) (blanks : ∀ c ∈ text, Text.isBlank c = true)
  | entry (e : Entry)

/-- The line's text. -/
def Line.text : Line → List Char
  | .blank text _ _ => text
  | .entry e => e.line

theorem Line.text_blank (text : List Char) (no_feed : '\n' ∉ text)
    (blanks : ∀ c ∈ text, Text.isBlank c = true) :
    (Line.blank text no_feed blanks).text = text := rfl

theorem Line.text_entry (e : Entry) : (Line.entry e).text = e.line := rfl

/-- The mount that the line is about. -/
def Line.mount? : Line → Option MountRecord
  | .blank _ _ _ => none
  | .entry e => some e.mount

/-- The text of the lines, each ended by a line feed. -/
def printed (lines : List Line) : String :=
  String.ofList (lines.flatMap fun l => l.text ++ ['\n'])

/-! ## The bytes of a field -/

theorem toNat_octalDigit (n : Nat) : (octalDigit n).toNat = n % 8 + 0x30 := by
  rw [octalDigit, Utf8.toNat_ofNat (by omega)]

theorem isOctal_octalDigit (n : Nat) : isOctal (octalDigit n) = true := by
  have h : 0x30 ≤ octalDigit n ∧ octalDigit n ≤ 0x37 := by
    rw [octalDigit, Utf8.between_ofNat (by omega)]
    show 0x30 ≤ n % 8 + 0x30 ∧ n % 8 + 0x30 ≤ 0x37
    omega
  simp [isOctal, h]

theorem octalNumber_digits (b : UInt8) :
    octalNumber (octalDigit (b.toNat / 64)) (octalDigit (b.toNat / 8)) (octalDigit b.toNat)
      = b.toNat := by
  have hb : b.toNat < 256 := b.toNat_lt
  simp only [octalNumber, octalValue, toNat_octalDigit]
  omega

theorem unescape_octalEscape (b : UInt8) (rest : List UInt8) :
    unescape (octalEscape b ++ rest) = b :: unescape rest := by
  have hb : b.toNat < 256 := b.toNat_lt
  simp [octalEscape, unescape, isOctal_octalDigit, octalNumber_digits, hb]

theorem unescape_cons {b : UInt8} (h : b ≠ 0x5C) (rest : List UInt8) :
    unescape (b :: rest) = b :: unescape rest := by
  rw [unescape.eq_def]
  simp only [h, if_false]

/-- Reading undoes the escapes, wherever a backslash is written as one. -/
theorem unescape_escape {escaped : UInt8 → Bool} (h : escaped 0x5C = true) (bytes : List UInt8) :
    unescape (escape escaped bytes) = bytes := by
  induction bytes with
  | nil => rfl
  | cons b bytes ih =>
      have hcons : escape escaped (b :: bytes)
          = (if escaped b then octalEscape b else [b]) ++ escape escaped bytes := rfl
      rw [hcons]
      split
      · rw [unescape_octalEscape, ih]
      · have hb : b ≠ 0x5C := fun hb => by simp_all
        rw [List.singleton_append, unescape_cons hb, ih]

/-- An escape is made of bytes that no field needs to escape. -/
theorem mem_octalEscape {b x : UInt8} (h : x ∈ octalEscape b) :
    x = 0x5C ∨ 0x30 ≤ x ∧ x ≤ 0x37 := by
  have digit : ∀ n, 0x30 ≤ octalDigit n ∧ octalDigit n ≤ 0x37 := fun n => by
    simpa [isOctal] using isOctal_octalDigit n
  simp only [octalEscape, List.mem_cons, List.not_mem_nil, or_false] at h
  rcases h with rfl | rfl | rfl | rfl
  · exact .inl rfl
  all_goals exact .inr (digit _)

theorem mem_escape {escaped : UInt8 → Bool} {bytes : List UInt8} {x : UInt8}
    (h : x ∈ escape escaped bytes) : escaped x = false ∨ x = 0x5C ∨ 0x30 ≤ x ∧ x ≤ 0x37 := by
  rw [escape, List.mem_flatMap] at h
  obtain ⟨b, -, hx⟩ := h
  split at hx
  · exact .inr (mem_octalEscape hx)
  · rw [List.mem_singleton] at hx
    subst hx
    exact .inl (by simp_all)

theorem spell_octalEscape (b : UInt8) : Utf8.Spell (octalEscape b) := by
  apply Utf8.spell_of_ascii
  intro x hx
  have := mem_octalEscape hx
  grind

/-- What a field is written as is text, escaped or not. -/
theorem Escapes.spell {bytes : List UInt8} (e : Escapes bytes) :
    Utf8.Spell (escape e.escaped bytes) := by
  rcases e.high with hall | ⟨hnone, cs, rfl⟩
  · apply Utf8.spell_of_ascii
    intro x hx
    have := mem_escape hx
    grind
  · -- a character is one byte, escaped or not, or it is of bytes that are left alone
    induction cs with
    | nil => exact ⟨[], rfl⟩
    | cons c cs ih =>
        have happend : escape e.escaped (Utf8.encode (c :: cs))
            = escape e.escaped (String.utf8EncodeChar c) ++ escape e.escaped (Utf8.encode cs) := by
          simp [escape]
        rw [happend]
        refine Utf8.Spell.append ?_ (ih ⟨e.escaped, e.space, e.tab, e.lineFeed, e.backslash,
          .inr ⟨hnone, cs, rfl⟩⟩ hnone)
        rcases Nat.lt_or_ge c.toNat 128 with hc | hc
        · rw [Utf8.encodeChar_of_ascii hc]
          simp only [escape, List.flatMap_cons, List.flatMap_nil, List.append_nil]
          split
          · exact spell_octalEscape _
          · exact ⟨[c], by simp [Utf8.encodeChar_of_ascii hc]⟩
        · have hleft : escape e.escaped (String.utf8EncodeChar c) = String.utf8EncodeChar c := by
            have hall := Utf8.high_of_mem_encodeChar hc
            rw [escape, List.flatMap_congr fun b hb => by rw [hnone b (hall b hb)]]
            simp
          exact ⟨[c], by simp [hleft]⟩

theorem Escapes.encode_text {bytes : List UInt8} (e : Escapes bytes) :
    Utf8.encode e.text = escape e.escaped bytes :=
  e.spell.encode_lossy

/-- A field is read back as the bytes it was written for. -/
theorem Escapes.fieldBytes_text {bytes : List UInt8} (e : Escapes bytes) :
    fieldBytes e.text = bytes := by
  rw [fieldBytes, e.encode_text, unescape_escape e.backslash]

/-- Of the first 128 characters a field holds only bytes that it need not
escape. -/
theorem Escapes.kept_of_mem {bytes : List UInt8} (e : Escapes bytes) {c : Char} (hc : c ∈ e.text)
    (h : c.toNat < 128) : e.escaped (UInt8.ofNat c.toNat) = false ∨ UInt8.ofNat c.toNat = 0x5C
      ∨ 0x30 ≤ UInt8.ofNat c.toNat ∧ UInt8.ofNat c.toNat ≤ 0x37 :=
  mem_escape (e.encode_text ▸ Utf8.mem_encode_of_ascii hc h)

/-- Neither a space nor a line feed is in the text, so that it stays one
field of one line. -/
structure IsField (text : List Char) : Prop where
  no_space : ' ' ∉ text
  no_feed : '\n' ∉ text

theorem Escapes.isField {bytes : List UInt8} (e : Escapes bytes) : IsField e.text := by
  constructor
  · intro h
    rcases e.kept_of_mem h (by decide) with h | h | h
    · exact absurd (e.space.symm.trans h) (by decide)
    · exact absurd h (by decide)
    · exact absurd h (by decide)
  · intro h
    rcases e.kept_of_mem h (by decide) with h | h | h
    · exact absurd (e.lineFeed.symm.trans h) (by decide)
    · exact absurd h (by decide)
    · exact absurd h (by decide)

theorem notMem_of_blank {c : Char} {text : List Char} (h : ∀ x ∈ text, Text.isBlank x = false)
    (hc : Text.isBlank c = true) : c ∉ text := by
  intro hmem
  rw [h c hmem] at hc
  exact absurd hc (by decide)

theorem isField_of_no_blank {text : List Char} (h : ∀ c ∈ text, Text.isBlank c = false) :
    IsField text :=
  ⟨notMem_of_blank h (by decide), notMem_of_blank h (by decide)⟩

theorem Escapes.text_ne_dash {bytes : List UInt8} (e : Escapes bytes) (h : bytes ≠ [0x2D]) :
    e.text ≠ ['-'] := by
  intro htext
  have hbytes := e.fieldBytes_text
  rw [htext] at hbytes
  exact h (hbytes.symm.trans (by decide))

/-! ## Options -/

theorem eraseDups_of_nodup {xs : List String} (h : xs.Nodup) : xs.eraseDups = xs := by
  induction xs with
  | nil => rfl
  | cons x xs ih =>
      rw [List.nodup_cons] at h
      have hfilter : xs.filter (fun y => !y == x) = xs := by
        rw [List.filter_eq_self]
        intro y hy
        have : y ≠ x := fun hyx => h.1 (hyx ▸ hy)
        simpa using this
      rw [List.eraseDups_cons, hfilter, ih h.2]

theorem Lists.nodup {set listed : List String} (h : Lists set listed) : set.Nodup := by
  refine h.sorted.imp ?_
  rintro a b hab rfl
  exact String.lt_irrefl a hab

/-- The set of the listed options is the set, whatever their order. -/
theorem Lists.optionSet {set listed : List String} (h : Lists set listed) :
    MountRecord.optionSet listed = set := by
  have hfilter : listed.filter (!·.isEmpty) = listed := by
    rw [List.filter_eq_self]
    intro o ho
    have := h.ne_empty o (h.perm.mem_iff.1 ho)
    simpa [String.isEmpty_iff] using this
  rw [MountRecord.optionSet, hfilter, eraseDups_of_nodup (h.perm.nodup_iff.2 h.nodup)]
  have hsorted : (listed.mergeSort fun a b => decide (a ≤ b)).Pairwise fun a b =>
      decide (a ≤ b) = true :=
    List.pairwise_mergeSort (fun a b c hab hbc => by
        simp only [decide_eq_true_eq] at hab hbc ⊢
        exact String.le_trans hab hbc)
      (fun a b => by simpa using String.le_total a b) listed
  have hset : set.Pairwise fun a b => decide (a ≤ b) = true :=
    h.sorted.imp fun hab => decide_eq_true (Std.le_of_lt hab)
  refine List.Perm.eq_of_pairwise ?_ hsorted hset ((List.mergeSort_perm _ _).trans h.perm)
  intro a b _ _ hab hba
  exact String.le_antisymm (of_decide_eq_true hab) (of_decide_eq_true hba)

/-- The options of a field are the set that was listed in it. -/
theorem fieldOptions_optionField {set listed : List String} (h : Lists set listed) :
    fieldOptions (optionField listed) = set := by
  rw [fieldOptions, optionField]
  cases listed with
  | nil =>
      have : set = [] := h.perm.nil_eq.symm
      subst this
      have hempty : "".isEmpty = true := rfl
      simp [joinPieces, pieces, MountRecord.optionSet, hempty]
  | cons o os =>
      have hcomma : ∀ p ∈ (o :: os).map String.toList, ',' ∉ p := by
        intro p hp
        rw [List.mem_map] at hp
        obtain ⟨q, hq, rfl⟩ := hp
        exact h.no_comma q (h.perm.mem_iff.1 hq)
      rw [pieces_joinPieces (by simp) hcomma, List.map_map]
      have hid : (o :: os).map (String.ofList ∘ String.toList) = o :: os := by
        simp [Function.comp_def]
      rw [hid, h.optionSet]

/-- A field of options holds no blanks. -/
theorem Lists.no_blank_field {set listed : List String} (h : Lists set listed) :
    ∀ c ∈ optionField listed, Text.isBlank c = false := by
  intro c hc
  rcases mem_joinPieces hc with rfl | ⟨p, hp, hc⟩
  · decide
  · rw [List.mem_map] at hp
    obtain ⟨o, ho, rfl⟩ := hp
    exact h.no_blank o (h.perm.mem_iff.1 ho) c hc

theorem optionField_ne_dash {listed : List String} (h : listed ≠ ["-"]) :
    optionField listed ≠ ['-'] := by
  intro hdash
  match listed, h, hdash with
  | [], _, hdash => simp [optionField, joinPieces] at hdash
  | [o], h, hdash =>
      have : o = "-" := String.toList_injective hdash
      exact h (by rw [this])
  | o :: p :: ps, _, hdash =>
      have hcomma : ',' ∈ optionField (o :: p :: ps) := by simp [optionField, joinPieces]
      rw [hdash] at hcomma
      exact absurd hcomma (by decide)

/-! ## The halves of a line -/

theorem cutAt?_cons {mark : List Char} {c : Char} {t : List Char}
    (h : ¬ mark <+: c :: t) :
    Text.cutAt? mark (c :: t) = (Text.cutAt? mark t).map fun (before, after) =>
      (c :: before, after) := by
  rw [Text.cutAt?, if_neg (by rwa [List.isPrefixOf_iff_prefix])]

/-- The mark starts with a space, so none starts within a piece. -/
theorem cutAt?_piece {p : List Char} (hp : ' ' ∉ p) (t : List Char) :
    Text.cutAt? [' ', '-', ' '] (p ++ t)
      = (Text.cutAt? [' ', '-', ' '] t).map fun (before, after) => (p ++ before, after) := by
  induction p with
  | nil => simp
  | cons c p ih =>
      have hc : ' ' ≠ c := fun h => hp (h ▸ List.mem_cons_self)
      rw [List.cons_append, cutAt?_cons (by simp [List.cons_prefix_cons, hc]),
        ih fun h => hp (List.mem_cons_of_mem c h)]
      cases Text.cutAt? [' ', '-', ' '] t <;> rfl

/-- A field that is no dash is no mark, with the spaces around it. -/
theorem not_mark {q : List Char} (hspace : ' ' ∉ q) (hdash : q ≠ ['-']) (t : List Char) :
    ¬ [' ', '-', ' '] <+: ' ' :: (q ++ ' ' :: t) := by
  cases q with
  | nil => simp [List.cons_prefix_cons]
  | cons c q =>
      cases q with
      | nil =>
          have hc : '-' ≠ c := fun hc => hdash (by rw [hc])
          simp [List.cons_prefix_cons, hc]
      | cons d q =>
          have hd : ' ' ≠ d := fun hd => hspace (by rw [hd]; simp)
          simp [List.cons_prefix_cons, hd]

/-- The first dash that stands alone ends the fields before it. -/
theorem cutAt?_dash {fields : List (List Char)} (hne : fields ≠ [])
    (h : ∀ p ∈ fields, ' ' ∉ p ∧ p ≠ ['-']) (rest : List Char) :
    Text.cutAt? [' ', '-', ' '] (joinPieces ' ' fields ++ ' ' :: '-' :: ' ' :: rest)
      = some (joinPieces ' ' fields, rest) := by
  induction fields with
  | nil => exact absurd rfl hne
  | cons p ps ih =>
      cases ps with
      | nil =>
          rw [joinPieces, cutAt?_piece (h p List.mem_cons_self).1]
          simp [Text.cutAt?]
      | cons q qs =>
          have hq := h q (List.mem_cons_of_mem p List.mem_cons_self)
          have ih := ih (List.cons_ne_nil q qs) fun r hr => h r (List.mem_cons_of_mem p hr)
          -- what follows the space is the next field, up to another space
          have hnext : ∃ t, joinPieces ' ' (q :: qs) ++ ' ' :: '-' :: ' ' :: rest
              = q ++ ' ' :: t := by
            cases qs with
            | nil => exact ⟨_, rfl⟩
            | cons r rs => exact ⟨joinPieces ' ' (r :: rs) ++ ' ' :: '-' :: ' ' :: rest,
                by simp [joinPieces]⟩
          have hskip : ¬ [' ', '-', ' '] <+: ' ' :: (joinPieces ' ' (q :: qs)
              ++ ' ' :: '-' :: ' ' :: rest) := by
            obtain ⟨t, ht⟩ := hnext
            rw [ht]
            exact not_mark hq.1 hq.2 t
          rw [joinPieces, List.append_assoc, cutAt?_piece (h p List.mem_cons_self).1,
            List.cons_append, cutAt?_cons hskip, ih]
          rfl

/-! ## The record of a line -/

namespace Entry

variable (e : Entry)

theorem head_fields : ∀ p ∈ e.head, IsField p ∧ p ≠ ['-'] := by
  have word : ∀ w, IsWord w → IsField w.toList ∧ w.toList ≠ ['-'] := fun w hw =>
    ⟨isField_of_no_blank hw.no_blank, fun h => hw.ne_dash (String.toList_injective h)⟩
  have htarget : e.mount.target.bytes ≠ [0x2D] := fun h => by
    have := e.target_absolute
    rw [Path.isAbsolute, h] at this
    exact absurd this (by decide)
  have hwords := e.words
  simp only [List.forall_mem_append, List.forall_mem_cons] at hwords
  obtain ⟨⟨hid, hparent, hdevice, -⟩, hoptional⟩ := hwords
  simp only [head, List.forall_mem_append, List.forall_mem_cons, List.forall_mem_map]
  refine ⟨⟨word _ hid, word _ hparent, word _ hdevice, ?_, ?_, ?_, by simp⟩,
    fun w hw => word w (hoptional w hw)⟩
  · exact ⟨e.rootEscapes.isField, e.rootEscapes.text_ne_dash e.root_ne_dash⟩
  · exact ⟨e.targetEscapes.isField, e.targetEscapes.text_ne_dash htarget⟩
  · exact ⟨isField_of_no_blank e.vfs_lists.no_blank_field, optionField_ne_dash e.vfs_ne_dash⟩

theorem tail_fields : ∀ p ∈ e.tail, IsField p := by
  simp only [tail, List.forall_mem_cons]
  exact ⟨isField_of_no_blank e.fsType_no_blank, e.sourceEscapes.isField,
    isField_of_no_blank e.fs_lists.no_blank_field, by simp⟩

/-- The line is its two halves with the dash between them. -/
theorem line_eq : e.line = joinPieces ' ' e.head ++ ' ' :: '-' :: ' ' :: joinPieces ' ' e.tail := by
  rw [line, joinPieces_append (by simp [head]) (by simp)]
  rfl

/-- **The record read from an entry's line is the entry's mount.** -/
theorem record?_line : record? e.line = some e.mount := by
  have hhead : pieces ' ' (joinPieces ' ' e.head) = e.head :=
    pieces_joinPieces (by simp [head]) fun p hp => (e.head_fields p hp).1.no_space
  have htail : pieces ' ' (joinPieces ' ' e.tail) = e.tail :=
    pieces_joinPieces (by simp [tail]) fun p hp => (e.tail_fields p hp).no_space
  have hcut := cutAt?_dash (by simp [head])
    (fun p hp => (e.head_fields p hp).imp_left IsField.no_space) (joinPieces ' ' e.tail)
  rw [record?, e.line_eq, hcut]
  simp only [Option.bind_eq_bind, Option.bind_some, hhead, htail]
  simp [head, tail, Escapes.fieldBytes_text, Utf8.lossy_encode,
    fieldOptions_optionField e.vfs_lists, fieldOptions_optionField e.fs_lists]

/-! ## The lines of a text -/

theorem lineFeed_notMem : '\n' ∉ e.line := by
  intro h
  rcases mem_joinPieces h with h | ⟨p, hp, hc⟩
  · exact absurd h (by decide)
  · rw [List.mem_append, List.mem_cons] at hp
    rcases hp with hp | rfl | hp
    · exact (e.head_fields p hp).1.no_feed hc
    · exact absurd hc (by decide)
    · exact (e.tail_fields p hp).no_feed hc

/-- A line ends in its last option, or in the space before it, so that its
last character is no part of the line's end. -/
theorem stripReturn_line : Text.stripReturn e.line = e.line := by
  have hsplit : e.line = (joinPieces ' ' e.head ++ [' ', '-', ' '] ++ e.mount.fsType.toList
      ++ ' ' :: e.sourceEscapes.text) ++ ' ' :: optionField e.fsListed := by
    rw [line_eq]
    simp [tail, joinPieces]
  have hlast : e.line.getLast? ≠ some '\r' := by
    rw [hsplit, List.getLast?_append_of_ne_nil _ (List.cons_ne_nil _ _)]
    intro h
    rcases List.mem_cons.1 (List.mem_of_getLast? h) with h | h
    · exact absurd h (by decide)
    · exact notMem_of_blank e.fs_lists.no_blank_field (by decide) h
  exact Text.stripReturn_eq_self hlast

theorem line_not_blank : e.line.all Text.isBlank = false := by
  rw [List.all_eq_false]
  exact ⟨'-', by simp [line_eq], by decide⟩

theorem record_line : record e.line = .ok e.mount := by
  rw [record, record?_line]

end Entry

theorem Line.lineFeed_notMem (l : Line) : '\n' ∉ l.text := by
  cases l with
  | blank text no_feed blanks => exact no_feed
  | entry e => exact e.lineFeed_notMem

theorem lines_printed (lines : List Line) :
    Text.lines (printed lines).toList = lines.map fun l => Text.stripReturn l.text := by
  have hlines := Text.lines_terminated (lines.map Line.text) (by
    intro t ht
    obtain ⟨l, -, rfl⟩ := List.mem_map.1 ht
    exact l.lineFeed_notMem)
  rw [List.flatMap_map, List.map_map] at hlines
  rw [printed, String.toList_ofList, hlines]
  rfl

/-- **Reading undoes the formatting.** Of lines that are entries or blank,
the records read are the mounts of the entries, in the order of the lines. -/
theorem parse_printed (lines : List Line) :
    parse (printed lines) = .ok (lines.filterMap Line.mount?) := by
  rw [parse, lines_printed]
  induction lines with
  | nil => rfl
  | cons l lines ih =>
      rw [List.map_cons, List.filter_cons]
      cases l with
      | blank text no_feed blanks =>
          have hblank : (Text.stripReturn text).all Text.isBlank = true := by
            rw [List.all_eq_true]
            exact fun c hc => blanks c (Text.mem_of_mem_stripReturn hc)
          simp only [Line.text_blank, hblank, Bool.not_true, Bool.false_eq_true, if_false, ih]
          rfl
      | entry e =>
          simp only [Line.text_entry, e.stripReturn_line, e.line_not_blank, Bool.not_false, if_true,
            List.mapM_cons, e.record_line, ih]
          rfl

/-- A mount on a directory with a blank in its name, listed as the kernel
lists it. -/
example : ∃ e : Entry, e.mount.target = .ofString "/mnt/a b"
    ∧ e.mount.vfsOptions = ["nosuid", "rw"]
    ∧ String.ofList e.line = "40 22 8:1 / /mnt/a\\040b rw,nosuid shared:1 - ext4 /dev/sda1 rw" :=
  ⟨{
    mount := ⟨.ofString "/mnt/a b", "ext4", "/dev/sda1", ["nosuid", "rw"], ["rw"]⟩
    id := "40", parent := "22", device := "8:1", root := Utf8.encode "/".toList
    optional := ["shared:1"], vfsListed := ["rw", "nosuid"], fsListed := ["rw"]
    rootEscapes := .ofText "/", targetEscapes := .ofText "/mnt/a b"
    sourceEscapes := .ofText "/dev/sda1"
    words := by decide, root_ne_dash := by decide, target_absolute := rfl
    fsType_no_blank := by decide
    vfs_lists := ⟨by decide, by decide, by decide, by decide, by decide⟩
    vfs_ne_dash := by decide
    fs_lists := ⟨by decide, by decide, by decide, by decide, by decide⟩ }, rfl, rfl, by decide +kernel⟩

end ContainerMounts.Mountinfo
