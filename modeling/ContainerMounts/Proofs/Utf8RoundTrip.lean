/-
ContainerMounts.Proofs.Utf8RoundTrip — the reader of UTF-8 reads back what
was written as UTF-8.

`Utf8.decode` looks at a leading byte and then at as many bytes as that
one announces. Its equations for the four lengths come first, then the
same four in terms of the bits that the bytes carry, and a character is
written by one of them (`decode_encodeChar`).

Main statements: characters read back as themselves (`decode_encode`), so
that the text of a text's bytes is the text (`lossy_encode`); and what is
read from bytes that spell a text (`Spell`) is written as those bytes
(`Spell.encode_lossy`).
-/
import ContainerMounts.Text.Utf8

namespace ContainerMounts.Utf8

/-! ## One character at the front -/

section Equations

variable {b c d e : UInt8} {tail : List UInt8}

theorem decode_one (hb : b < 0x80) :
    decode (b :: tail) = some (Char.ofNat b.toNat) :: decode tail := by
  rw [decode.eq_def]
  simp only [hb, if_true]

theorem decode_two (hb : 0xC2 ≤ b ∧ b ≤ 0xDF) (hc : continues 0x80 0xBF c = true) :
    decode (b :: c :: tail)
      = some (Char.ofNat (b.toNat % 32 * 64 + payload c)) :: decode tail := by
  have hone : ¬ b < 0x80 := by grind
  rw [decode.eq_def]
  simp only [hone, hb, hc, if_true, if_false, and_self]

theorem decode_three (hb : 0xE0 ≤ b ∧ b ≤ 0xEF) (hc : secondOfThree b c = true)
    (hd : continues 0x80 0xBF d = true) :
    decode (b :: c :: d :: tail)
      = some (Char.ofNat ((b.toNat % 16 * 64 + payload c) * 64 + payload d)) :: decode tail := by
  have hone : ¬ b < 0x80 := by grind
  have htwo : ¬ (0xC2 ≤ b ∧ b ≤ 0xDF) := by grind
  rw [decode.eq_def]
  simp only [hone, htwo, hb, hc, hd, if_true, if_false, and_self]

theorem decode_four (hb : 0xF0 ≤ b ∧ b ≤ 0xF4) (hc : secondOfFour b c = true)
    (hd : continues 0x80 0xBF d = true) (he : continues 0x80 0xBF e = true) :
    decode (b :: c :: d :: e :: tail)
      = some (Char.ofNat (((b.toNat % 8 * 64 + payload c) * 64 + payload d) * 64 + payload e))
        :: decode tail := by
  have hone : ¬ b < 0x80 := by grind
  have htwo : ¬ (0xC2 ≤ b ∧ b ≤ 0xDF) := by grind
  have hthree : ¬ (0xE0 ≤ b ∧ b ≤ 0xEF) := by grind
  rw [decode.eq_def]
  simp only [hone, htwo, hthree, hb, hc, hd, he, if_true, if_false, and_self]

end Equations

/-! ## The bits that the bytes carry -/

section Bits

variable {i j k l n : Nat} {lo hi : UInt8} {tail : List UInt8}

theorem toNat_ofNat (h : n < 256) : (UInt8.ofNat n).toNat = n := by
  simp [Nat.mod_eq_of_lt h]

theorem between_ofNat (h : n < 256) :
    lo ≤ UInt8.ofNat n ∧ UInt8.ofNat n ≤ hi ↔ lo.toNat ≤ n ∧ n ≤ hi.toNat := by
  rw [UInt8.le_iff_toNat_le, UInt8.le_iff_toNat_le, toNat_ofNat h]

theorem ofNat_eq_iff {b : UInt8} (h : n < 256) : UInt8.ofNat n = b ↔ n = b.toNat := by
  rw [← UInt8.toNat_inj, toNat_ofNat h]

theorem continues_ofNat (h : n < 256) :
    continues lo hi (UInt8.ofNat n) = true ↔ lo.toNat ≤ n ∧ n ≤ hi.toNat := by
  simp only [continues, Bool.and_eq_true, decide_eq_true_eq, between_ofNat h]

/-- Any six bits make a byte that continues a character. -/
theorem continues_tail (h : n < 64) : continues 0x80 0xBF (UInt8.ofNat (n + 0x80)) = true := by
  rw [continues_ofNat (by omega)]
  show 0x80 ≤ n + 0x80 ∧ n + 0x80 ≤ 0xBF
  omega

theorem payload_tail (h : n < 64) : payload (UInt8.ofNat (n + 0x80)) = n := by
  rw [payload, toNat_ofNat (by omega)]
  omega

theorem decode_bits_one (hi : i < 128) :
    decode (UInt8.ofNat i :: tail) = some (Char.ofNat i) :: decode tail := by
  have hlead : UInt8.ofNat i < 0x80 := by
    rw [UInt8.lt_iff_toNat_lt, toNat_ofNat (by omega)]
    exact hi
  rw [decode_one hlead, toNat_ofNat (by omega)]

theorem decode_bits_two (hi : 2 ≤ i ∧ i < 32) (hj : j < 64) :
    decode (UInt8.ofNat (i + 0xC0) :: UInt8.ofNat (j + 0x80) :: tail)
      = some (Char.ofNat (i * 64 + j)) :: decode tail := by
  have hlead : 0xC2 ≤ UInt8.ofNat (i + 0xC0) ∧ UInt8.ofNat (i + 0xC0) ≤ 0xDF := by
    rw [between_ofNat (by omega)]
    show 0xC2 ≤ i + 0xC0 ∧ i + 0xC0 ≤ 0xDF
    omega
  rw [decode_two hlead (continues_tail hj), payload_tail hj, toNat_ofNat (by omega),
    show (i + 0xC0) % 32 = i by omega]

/-- The second of three bytes goes with the first one when the character is
neither short enough for two bytes nor a surrogate. -/
theorem secondOfThree_bits (hi : i < 16) (hj : j < 64) (hlong : i = 0 → 32 ≤ j)
    (hplane : i = 13 → j < 32) :
    secondOfThree (UInt8.ofNat (i + 0xE0)) (UInt8.ofNat (j + 0x80)) = true := by
  have hE0 : UInt8.ofNat (i + 0xE0) = 0xE0 ↔ i = 0 := by
    rw [ofNat_eq_iff (by omega)]
    show i + 0xE0 = 0xE0 ↔ i = 0
    omega
  have hED : UInt8.ofNat (i + 0xE0) = 0xED ↔ i = 13 := by
    rw [ofNat_eq_iff (by omega)]
    show i + 0xE0 = 0xED ↔ i = 13
    omega
  rw [secondOfThree, continues_ofNat (by omega)]
  simp only [hE0, hED]
  constructor
  · split
    · show 0xA0 ≤ j + 0x80
      have := hlong ‹_›
      omega
    · show 0x80 ≤ j + 0x80
      omega
  · split
    · show j + 0x80 ≤ 0x9F
      have := hplane ‹_›
      omega
    · show j + 0x80 ≤ 0xBF
      omega

theorem decode_bits_three (hi : i < 16) (hj : j < 64) (hk : k < 64) (hlong : i = 0 → 32 ≤ j)
    (hplane : i = 13 → j < 32) :
    decode (UInt8.ofNat (i + 0xE0) :: UInt8.ofNat (j + 0x80) :: UInt8.ofNat (k + 0x80) :: tail)
      = some (Char.ofNat ((i * 64 + j) * 64 + k)) :: decode tail := by
  have hlead : 0xE0 ≤ UInt8.ofNat (i + 0xE0) ∧ UInt8.ofNat (i + 0xE0) ≤ 0xEF := by
    rw [between_ofNat (by omega)]
    show 0xE0 ≤ i + 0xE0 ∧ i + 0xE0 ≤ 0xEF
    omega
  rw [decode_three hlead (secondOfThree_bits hi hj hlong hplane) (continues_tail hk),
    payload_tail hj, payload_tail hk, toNat_ofNat (by omega), show (i + 0xE0) % 16 = i by omega]

/-- The second of four bytes goes with the first one when the character is
neither short enough for three bytes nor beyond the last code point. -/
theorem secondOfFour_bits (hi : i < 5) (hj : j < 64) (hlong : i = 0 → 16 ≤ j)
    (hlast : i = 4 → j < 16) :
    secondOfFour (UInt8.ofNat (i + 0xF0)) (UInt8.ofNat (j + 0x80)) = true := by
  have hF0 : UInt8.ofNat (i + 0xF0) = 0xF0 ↔ i = 0 := by
    rw [ofNat_eq_iff (by omega)]
    show i + 0xF0 = 0xF0 ↔ i = 0
    omega
  have hF4 : UInt8.ofNat (i + 0xF0) = 0xF4 ↔ i = 4 := by
    rw [ofNat_eq_iff (by omega)]
    show i + 0xF0 = 0xF4 ↔ i = 4
    omega
  rw [secondOfFour, continues_ofNat (by omega)]
  simp only [hF0, hF4]
  constructor
  · split
    · show 0x90 ≤ j + 0x80
      have := hlong ‹_›
      omega
    · show 0x80 ≤ j + 0x80
      omega
  · split
    · show j + 0x80 ≤ 0x8F
      have := hlast ‹_›
      omega
    · show j + 0x80 ≤ 0xBF
      omega

theorem decode_bits_four (hi : i < 5) (hj : j < 64) (hk : k < 64) (hl : l < 64)
    (hlong : i = 0 → 16 ≤ j) (hlast : i = 4 → j < 16) :
    decode (UInt8.ofNat (i + 0xF0) :: UInt8.ofNat (j + 0x80) :: UInt8.ofNat (k + 0x80)
        :: UInt8.ofNat (l + 0x80) :: tail)
      = some (Char.ofNat (((i * 64 + j) * 64 + k) * 64 + l)) :: decode tail := by
  have hlead : 0xF0 ≤ UInt8.ofNat (i + 0xF0) ∧ UInt8.ofNat (i + 0xF0) ≤ 0xF4 := by
    rw [between_ofNat (by omega)]
    show 0xF0 ≤ i + 0xF0 ∧ i + 0xF0 ≤ 0xF4
    omega
  rw [decode_four hlead (secondOfFour_bits hi hj hlong hlast) (continues_tail hk)
    (continues_tail hl), payload_tail hj, payload_tail hk, payload_tail hl,
    toNat_ofNat (by omega), show (i + 0xF0) % 8 = i by omega]

end Bits

/-! ## Characters -/

/-- What a character is written as reads back as the character, whatever
follows. -/
theorem decode_encodeChar (c : Char) (rest : List UInt8) :
    decode (String.utf8EncodeChar c ++ rest) = some c :: decode rest := by
  have hvalid : c.toNat < 0xD800 ∨ 0xDFFF < c.toNat ∧ c.toNat < 0x110000 := c.valid
  have hc : ∀ {n : Nat}, n = c.toNat → Char.ofNat n = c := fun h => by
    rw [h, Char.ofNat_toNat]
  rw [String.utf8EncodeChar]
  simp only [show c.val.toNat = c.toNat from rfl]
  split
  · rw [List.singleton_append, decode_bits_one (by omega), hc rfl]
  · split
    · rw [List.cons_append, List.cons_append, List.nil_append,
        decode_bits_two (by omega) (by omega), hc (by omega)]
    · split
      · rw [List.cons_append, List.cons_append, List.cons_append, List.nil_append,
          decode_bits_three (by omega) (by omega) (by omega) (by omega) (by omega), hc (by omega)]
      · rw [List.cons_append, List.cons_append, List.cons_append, List.cons_append,
          List.nil_append, decode_bits_four (by omega) (by omega) (by omega) (by omega)
            (by omega) (by omega), hc (by omega)]

/-! ## Texts -/

@[simp] theorem encode_nil : encode [] = [] := rfl

@[simp] theorem encode_cons (c : Char) (cs : List Char) :
    encode (c :: cs) = String.utf8EncodeChar c ++ encode cs := rfl

@[simp] theorem encode_append (cs ds : List Char) : encode (cs ++ ds) = encode cs ++ encode ds := by
  simp [encode]

/-- **Characters written as UTF-8 read back as themselves.** -/
theorem decode_encode (cs : List Char) : decode (encode cs) = cs.map some := by
  induction cs with
  | nil => rfl
  | cons c cs ih => rw [encode_cons, decode_encodeChar, ih, List.map_cons]

/-- The text of a text's bytes is the text. -/
theorem lossy_encode (cs : List Char) : lossy (encode cs) = String.ofList cs := by
  simp [lossy, decode_encode, Function.comp_def]

/-! ## Bytes that spell a text -/

/-- The bytes are UTF-8 throughout. -/
def Spell (bytes : List UInt8) : Prop := ∃ cs, encode cs = bytes

theorem Spell.encode_lossy {bytes : List UInt8} (h : Spell bytes) :
    encode (lossy bytes).toList = bytes := by
  obtain ⟨cs, rfl⟩ := h
  rw [lossy_encode, String.toList_ofList]

theorem Spell.append {xs ys : List UInt8} (hx : Spell xs) (hy : Spell ys) : Spell (xs ++ ys) := by
  obtain ⟨cs, rfl⟩ := hx
  obtain ⟨ds, rfl⟩ := hy
  exact ⟨cs ++ ds, encode_append cs ds⟩

theorem encodeChar_of_ascii {c : Char} (h : c.toNat < 128) :
    String.utf8EncodeChar c = [UInt8.ofNat c.toNat] := by
  have hle : c.val.toNat ≤ 0x7F := Nat.le_of_lt_succ h
  simp only [String.utf8EncodeChar, hle, if_true]
  rfl

/-- The bytes of the other characters are none of the first 128. -/
theorem high_of_mem_encodeChar {c : Char} (h : 128 ≤ c.toNat) :
    ∀ b ∈ String.utf8EncodeChar c, 0x80 ≤ b := by
  have hvalid : c.toNat < 0xD800 ∨ 0xDFFF < c.toNat ∧ c.toNat < 0x110000 := c.valid
  have high : ∀ {n : Nat}, 128 ≤ n → n < 256 → 0x80 ≤ UInt8.ofNat n := fun hlo hhi => by
    rw [UInt8.le_iff_toNat_le, toNat_ofNat hhi]
    exact hlo
  intro b hb
  rw [String.utf8EncodeChar] at hb
  simp only [show c.val.toNat = c.toNat from rfl] at hb
  split at hb
  · omega
  · split at hb
    · simp only [List.mem_cons, List.not_mem_nil, or_false] at hb
      rcases hb with rfl | rfl <;> exact high (by omega) (by omega)
    · split at hb
      · simp only [List.mem_cons, List.not_mem_nil, or_false] at hb
        rcases hb with rfl | rfl | rfl <;> exact high (by omega) (by omega)
      · simp only [List.mem_cons, List.not_mem_nil, or_false] at hb
        rcases hb with rfl | rfl | rfl | rfl <;> exact high (by omega) (by omega)

/-- Each of the first 128 bytes is a character of its own. -/
theorem spell_of_ascii {bytes : List UInt8} (h : ∀ b ∈ bytes, b < 0x80) : Spell bytes := by
  induction bytes with
  | nil => exact ⟨[], rfl⟩
  | cons b bytes ih =>
      have hb : b.toNat < 128 := UInt8.lt_iff_toNat_lt.1 (h b List.mem_cons_self)
      have hc : (Char.ofNat b.toNat).toNat = b.toNat := by
        rw [Char.ofNat, dif_pos (show b.toNat.isValidChar from Or.inl (by omega))]
        rfl
      have hone : Spell [b] :=
        ⟨[Char.ofNat b.toNat], by simp [encodeChar_of_ascii (c := Char.ofNat b.toNat), hc, hb]⟩
      exact hone.append (ih fun x hx => h x (List.mem_cons_of_mem _ hx))

theorem mem_encode_of_ascii {c : Char} {cs : List Char} (hc : c ∈ cs) (h : c.toNat < 128) :
    UInt8.ofNat c.toNat ∈ encode cs := by
  rw [encode, List.mem_flatMap]
  exact ⟨c, hc, by simp [encodeChar_of_ascii h]⟩

end ContainerMounts.Utf8
