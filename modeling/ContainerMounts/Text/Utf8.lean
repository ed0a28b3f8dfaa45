/-
ContainerMounts.Text.Utf8 — text as bytes and back.

* `Utf8.encode` writes characters as UTF-8.
* `Utf8.decode` reads bytes as UTF-8, one item a character. Where the
  bytes are no UTF-8 the item is `none`, one for every maximal run of
  bytes that begins a character and cannot be finished.
* `Utf8.text?` is the text of well-formed bytes only, `Utf8.lossy` shows
  each `none` as the replacement character U+FFFD.
-/

namespace ContainerMounts.Utf8

/-- The bytes of the characters, one after the other. -/
def encode (cs : List Char) : List UInt8 := cs.flatMap String.utf8EncodeChar

/-- A byte that continues a character, with its payload limited to the
range `lo` to `hi` that the leading byte leaves open. -/
def continues (lo hi b : UInt8) : Bool := lo ≤ b && b ≤ hi

/-- The six low bits that a continuing byte adds. -/
def payload (b : UInt8) : Nat := b.toNat % 64

/-- The second bytes that may follow a leading byte of a three-byte
character: neither an overlong form nor a surrogate. -/
def secondOfThree (lead b : UInt8) : Bool :=
  continues (if lead = 0xE0 then 0xA0 else 0x80) (if lead = 0xED then 0x9F else 0xBF) b

/-- The second bytes that may follow a leading byte of a four-byte
character: neither an overlong form nor beyond U+10FFFF. -/
def secondOfFour (lead b : UInt8) : Bool :=
  continues (if lead = 0xF0 then 0x90 else 0x80) (if lead = 0xF4 then 0x8F else 0xBF) b

/-- The characters that the bytes spell, `none` where they spell none. -/
def decode : List UInt8 → List (Option Char)
  | [] => []
  | b :: rest =>
      if b < 0x80 then some (Char.ofNat b.toNat) :: decode rest
      else if 0xC2 ≤ b ∧ b ≤ 0xDF then
        match rest with
        | c :: tail =>
            if continues 0x80 0xBF c then
              some (Char.ofNat (b.toNat % 32 * 64 + payload c)) :: decode tail
            else none :: decode (c :: tail)
        | [] => [none]
      else if 0xE0 ≤ b ∧ b ≤ 0xEF then
        match rest with
        | c :: d :: tail =>
            if secondOfThree b c then
              if continues 0x80 0xBF d then
                some (Char.ofNat ((b.toNat % 16 * 64 + payload c) * 64 + payload d)) :: decode tail
              else none :: decode (d :: tail)
            else none :: decode (c :: d :: tail)
        | [c] => if secondOfThree b c then [none] else none :: decode [c]
        | [] => [none]
      else if 0xF0 ≤ b ∧ b ≤ 0xF4 then
        match rest with
        | c :: d :: e :: tail =>
            if secondOfFour b c then
              if continues 0x80 0xBF d then
                if continues 0x80 0xBF e then
                  some (Char.ofNat (((b.toNat % 8 * 64 + payload c) * 64 + payload d) * 64
                    + payload e)) :: decode tail
                else none :: decode (e :: tail)
              else none :: decode (d :: e :: tail)
            else none :: decode (c :: d :: e :: tail)
        | [c, d] =>
            if secondOfFour b c then
              if continues 0x80 0xBF d then [none] else none :: decode [d]
            else none :: decode [c, d]
        | [c] => if secondOfFour b c then [none] else none :: decode [c]
        | [] => [none]
      else none :: decode rest

/-- The text of bytes that are UTF-8 throughout. -/
def text? (bytes : List UInt8) : Option String :=
  (decode bytes).mapM id |>.map String.ofList

/-- The text of the bytes, with U+FFFD for what is no UTF-8. -/
def lossy (bytes : List UInt8) : String :=
  String.ofList ((decode bytes).map (·.getD (Char.ofNat 0xFFFD)))

end ContainerMounts.Utf8
