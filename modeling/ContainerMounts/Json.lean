/-
ContainerMounts.Json — JSON values as they are written.

A value keeps what a reader of records has to see: numbers as text,
fields in order and as often as they occur. A string with an unpaired
surrogate escape is well-formed JSON that no text can represent; it is
kept as a missing text, so that only a reader that wants the text
refuses it.
-/

namespace ContainerMounts

/-- A JSON value. -/
inductive Json where
  | null
  | bool (value : Bool)
  /-- A number, as written. -/
  | number (text : String)
  /-- A string, with no text if an escape in it is half a surrogate pair. -/
  | string (text : Option String)
  | array (items : List Json)
  | object (fields : List (Option String × Json))

namespace Json

instance : Inhabited Json := ⟨.null⟩

/-- A text as a value. -/
def text (s : String) : Json := .string (some s)

/-- A number as a value. -/
def ofNat (n : Nat) : Json := .number (toString n)

/-- A record with these fields. -/
def record (fields : List (String × Json)) : Json :=
  .object (fields.map fun (name, value) => (some name, value))

/-- Texts as a list. -/
def texts (items : List String) : Json := .array (items.map text)

/-- The value, or null if there is none. -/
def ofOption (value : Option Json) : Json := value.getD .null

end Json

end ContainerMounts
