/-
ContainerMounts.Json.Record — JSON values read as records of known fields.

A record is written as an object or, with its values in the order of the
fields, as a list. In an object unknown fields are ignored and a known
one may stand once; in a list the last fields may be missing, but no
value may be too many. A field that may be absent is read by
`Json.optional` if null means absence, and by `Json.withDefault` if not.
-/
import ContainerMounts.Json

namespace ContainerMounts.Json

/-- The values of the fields with these names, in that order, absent ones as
`none`. A list has at least `least` values. -/
def fields? (names : List String) (least : Nat) : Json → Option (List (Option Json))
  | .object entries =>
      if entries.any (·.1.isNone) then none
      else
        names.mapM fun name =>
          match entries.filter (·.1 == some name) with
          | [] => some none
          | [(_, value)] => some (some value)
          | _ => none
  | .array items =>
      if items.length < least ∨ names.length < items.length then none
      else some (items.map some ++ List.replicate (names.length - items.length) none)
  | _ => none

/-- A field that has to be there. -/
def required {α : Type} (read : Json → Option α) (field : Option Json) : Option α :=
  field.bind read

/-- A field that may be absent or null. -/
def optional {α : Type} (read : Json → Option α) : Option Json → Option (Option α)
  | none => some none
  | some .null => some none
  | some value => some <$> read value

/-- A field that may be absent but not null. -/
def withDefault {α : Type} (default : α) (read : Json → Option α) : Option Json → Option α
  | none => some default
  | some value => read value

/-- A text. -/
def readText : Json → Option String
  | .string text => text
  | _ => none

/-- A truth value. -/
def readBool : Json → Option Bool
  | .bool value => some value
  | _ => none

/-- A list of such values. -/
def readList {α : Type} (read : Json → Option α) : Json → Option (List α)
  | .array items => items.mapM read
  | _ => none

/-- The number written by decimal digits. -/
def decimal (digits : List Char) : Nat :=
  digits.foldl (fun n c => n * 10 + (c.toNat - '0'.toNat)) 0

/-- An id: an integer of 32 bits, written without sign, fraction and
exponent. -/
def readId : Json → Option UInt32
  | .number text =>
      let digits := text.toList
      if digits.all Char.isDigit ∧ decimal digits < UInt32.size then
        some (UInt32.ofNat (decimal digits))
      else none
  | _ => none

end ContainerMounts.Json
