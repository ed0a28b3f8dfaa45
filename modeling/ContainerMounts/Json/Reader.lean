/-
ContainerMounts.Json.Reader — JSON text read into values.

Reading goes over the text once and is done by two machines that take one
item at a time: `JsonLexer.step` turns characters into tokens, and
`JsonBuilder.step` turns tokens into a value with a stack of open lists and
records. Neither limits how deep values are nested. `Json.parse` accepts
exactly one value with blanks around it.
-/
import ContainerMounts.Json

namespace ContainerMounts

/-! ## Tokens -/

/-- A token of JSON text. -/
inductive JsonToken where
  | openRecord
  | closeRecord
  | openList
  | closeList
  | colon
  | comma
  /-- A value without parts. -/
  | atom (value : Json)

/-- A unit of a string: a character, or the number of a Unicode escape. -/
inductive JsonUnit where
  | char (c : Char)
  | escape (number : Nat)

namespace JsonUnit

/-- The number is the first half of a surrogate pair. -/
def isLeading (n : Nat) : Bool := 0xD800 ≤ n && n < 0xDC00

/-- The number is the second half of a surrogate pair. -/
def isTrailing (n : Nat) : Bool := 0xDC00 ≤ n && n < 0xE000

/-- The characters that the units spell; none if a surrogate lacks its
other half. -/
def spell? : List JsonUnit → Option (List Char)
  | [] => some []
  | .char c :: rest => (c :: ·) <$> spell? rest
  | .escape n :: rest =>
      if isLeading n then
        match rest with
        | .escape m :: tail =>
            if isTrailing m then
              (Char.ofNat (0x10000 + (n - 0xD800) * 0x400 + (m - 0xDC00)) :: ·) <$> spell? tail
            else none
        | _ => none
      else if isTrailing n then none
      else (Char.ofNat n :: ·) <$> spell? rest

end JsonUnit

namespace JsonToken

/-- The value of a hexadecimal digit. -/
def hexDigit? (c : Char) : Option Nat :=
  if '0' ≤ c ∧ c ≤ '9' then some (c.toNat - '0'.toNat)
  else if 'a' ≤ c ∧ c ≤ 'f' then some (c.toNat - 'a'.toNat + 10)
  else if 'A' ≤ c ∧ c ≤ 'F' then some (c.toNat - 'A'.toNat + 10)
  else none

/-- The character that a one-character escape stands for. -/
def simpleEscape? (c : Char) : Option Char :=
  match c with
  | '"' => some '"'
  | '\\' => some '\\'
  | '/' => some '/'
  | 'b' => some (Char.ofNat 8)
  | 'f' => some (Char.ofNat 12)
  | 'n' => some '\n'
  | 'r' => some '\r'
  | 't' => some '\t'
  | _ => none

/-- One digit or more, and nothing else. -/
def isDigits (cs : List Char) : Bool := !cs.isEmpty && cs.all Char.isDigit

/-- An exponent's text after its letter: digits with an optional sign. -/
def isExponent (cs : List Char) : Bool :=
  match cs with
  | '+' :: digits => isDigits digits
  | '-' :: digits => isDigits digits
  | digits => isDigits digits

/-- The character opens an exponent. -/
def opensExponent (c : Char) : Bool := c == 'e' || c == 'E'

/-- What may follow the digits of a number: nothing or an exponent. -/
def isScale (cs : List Char) : Bool :=
  match cs with
  | [] => true
  | c :: rest => opensExponent c && isExponent rest

/-- What may follow the integer part of a number: a fraction and an
exponent, each optional. -/
def isFraction (cs : List Char) : Bool :=
  match cs with
  | '.' :: rest => isDigits (rest.takeWhile Char.isDigit) && isScale (rest.dropWhile Char.isDigit)
  | rest => isScale rest

/-- A number without sign: no digit may follow a leading zero. -/
def isUnsigned (cs : List Char) : Bool :=
  match cs with
  | '0' :: rest => isFraction rest
  | c :: rest => c.isDigit && isFraction (rest.dropWhile Char.isDigit)
  | [] => false

/-- The text of a number. -/
def isNumber (cs : List Char) : Bool :=
  match cs with
  | '-' :: rest => isUnsigned rest
  | rest => isUnsigned rest

/-- The value that a bare word stands for. -/
def ofWord? (word : List Char) : Option JsonToken :=
  if word = "null".toList then some (.atom .null)
  else if word = "true".toList then some (.atom (.bool true))
  else if word = "false".toList then some (.atom (.bool false))
  else if isNumber word then some (.atom (.number (String.ofList word)))
  else none

/-- The token that a punctuation character is. -/
def ofPunctuation? (c : Char) : Option JsonToken :=
  match c with
  | '\x7b' => some .openRecord
  | '\x7d' => some .closeRecord
  | '[' => some .openList
  | ']' => some .closeList
  | ':' => some .colon
  | ',' => some .comma
  | _ => none

/-- The character may stand between tokens. -/
def isBlank (c : Char) : Bool := c == ' ' || c == '\n' || c == '\t' || c == '\r'

end JsonToken

/-- Where in a token a text was cut. Collected parts have their last item
in front. -/
inductive JsonLexer where
  | between
  | word (chars : List Char)
  | string (units : List JsonUnit)
  /-- After a backslash. -/
  | escape (units : List JsonUnit)
  /-- In a Unicode escape, with the digits so far and their number. -/
  | hex (units : List JsonUnit) (digits number : Nat)

namespace JsonLexer

/-- A character between tokens, and the tokens it completes after those in
`done`. -/
def start (done : List JsonToken) (c : Char) : JsonLexer × List JsonToken :=
  if JsonToken.isBlank c then (.between, done)
  else if c = '"' then (.string [], done)
  else
    match JsonToken.ofPunctuation? c with
    | some token => (.between, token :: done)
    | none => (.word [c], done)

/-- The character ends a bare word. -/
def endsWord (c : Char) : Bool :=
  JsonToken.isBlank c || c == '"' || (JsonToken.ofPunctuation? c).isSome

/-- One more character. -/
def step (state : JsonLexer × List JsonToken) (c : Char) : Option (JsonLexer × List JsonToken) :=
  let done := state.2
  match state.1 with
  | .between => some (start done c)
  | .word chars =>
      if endsWord c then do
        let token ← JsonToken.ofWord? chars.reverse
        return start (token :: done) c
      else some (.word (c :: chars), done)
  | .string units =>
      if c = '"' then
        let text := (JsonUnit.spell? units.reverse).map String.ofList
        some (.between, .atom (.string text) :: done)
      else if c = '\\' then some (.escape units, done)
      else if c.toNat < 0x20 then none
      else some (.string (.char c :: units), done)
  | .escape units =>
      if c = 'u' then some (.hex units 0 0, done)
      else do
        let char ← JsonToken.simpleEscape? c
        return (.string (.char char :: units), done)
  | .hex units digits number => do
      let digit ← JsonToken.hexDigit? c
      let number := number * 16 + digit
      if digits = 3 then return (.string (.escape number :: units), done)
      else return (.hex units (digits + 1) number, done)

/-- The tokens when the text ends here. -/
def finish (state : JsonLexer × List JsonToken) : Option (List JsonToken) :=
  match state.1 with
  | .between => some state.2.reverse
  | .word chars => do
      let token ← JsonToken.ofWord? chars.reverse
      return (token :: state.2).reverse
  | _ => none

/-- The tokens of the text. -/
def tokens (cs : List Char) : Option (List JsonToken) := do
  finish (← cs.foldlM step (.between, []))

end JsonLexer

/-! ## Values -/

/-- A list or record that is still open, its last part in front. -/
inductive JsonFrame where
  | list (items : List Json)
  | record (fields : List (Option String × Json)) (key : Option String)

/-- What may come next. -/
inductive JsonBuilder where
  /-- A value. -/
  | wantValue (stack : List JsonFrame)
  /-- A value, or the end of the list just opened. -/
  | wantItem (stack : List JsonFrame)
  /-- A key, or the end of the record just opened. -/
  | wantFirstKey (stack : List JsonFrame)
  /-- A key. -/
  | wantKey (fields : List (Option String × Json)) (stack : List JsonFrame)
  /-- The colon after a key. -/
  | wantColon (frame : JsonFrame) (stack : List JsonFrame)
  /-- The end of a list or record, or a comma. -/
  | wantNext (frame : JsonFrame) (stack : List JsonFrame)
  /-- Nothing: the value is complete. -/
  | finished (value : Json)

namespace JsonBuilder

/-- A value is complete in the innermost open list or record. -/
def complete (value : Json) : List JsonFrame → JsonBuilder
  | [] => .finished value
  | .list items :: stack => .wantNext (.list (value :: items)) stack
  | .record fields key :: stack => .wantNext (.record ((key, value) :: fields) none) stack

/-- The beginning of a value. -/
def beginValue (stack : List JsonFrame) : JsonToken → Option JsonBuilder
  | .atom value => some (complete value stack)
  | .openList => some (.wantItem stack)
  | .openRecord => some (.wantFirstKey stack)
  | _ => none

/-- One more token. -/
def step : JsonBuilder → JsonToken → Option JsonBuilder
  | .wantValue stack, token => beginValue stack token
  | .wantItem stack, .closeList => some (complete (.array []) stack)
  | .wantItem stack, token => beginValue (.list [] :: stack) token
  | .wantFirstKey stack, .closeRecord => some (complete (.object []) stack)
  | .wantFirstKey stack, .atom (.string key) => some (.wantColon (.record [] key) stack)
  | .wantKey fields stack, .atom (.string key) => some (.wantColon (.record fields key) stack)
  | .wantColon frame stack, .colon => some (.wantValue (frame :: stack))
  | .wantNext (.list items) stack, .comma => some (.wantValue (.list items :: stack))
  | .wantNext (.list items) stack, .closeList => some (complete (.array items.reverse) stack)
  | .wantNext (.record fields _) stack, .comma => some (.wantKey fields stack)
  | .wantNext (.record fields _) stack, .closeRecord =>
      some (complete (.object fields.reverse) stack)
  | _, _ => none

end JsonBuilder

/-- The value that the text holds. -/
def Json.parse (text : String) : Option Json := do
  let tokens ← JsonLexer.tokens text.toList
  match ← tokens.foldlM JsonBuilder.step (.wantValue []) with
  | .finished value => some value
  | _ => none

end ContainerMounts
