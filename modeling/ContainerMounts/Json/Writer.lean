/-
ContainerMounts.Json.Writer — JSON values as indented text.

Lists and records go over several lines, each part on its own line and
two blanks further in; empty ones stay on one line.
-/
import ContainerMounts.Json

namespace ContainerMounts.Json

/-- A hexadecimal digit. -/
def hexChar (n : Nat) : Char :=
  if n < 10 then Char.ofNat ('0'.toNat + n) else Char.ofNat ('a'.toNat + (n - 10))

/-- A character inside a string. -/
def escapeChar (c : Char) : List Char :=
  match c with
  | '"' => ['\\', '"']
  | '\\' => ['\\', '\\']
  | '\n' => ['\\', 'n']
  | '\r' => ['\\', 'r']
  | '\t' => ['\\', 't']
  | _ =>
      if c.toNat = 8 then ['\\', 'b']
      else if c.toNat = 12 then ['\\', 'f']
      else if c.toNat < 0x20 then
        ['\\', 'u', '0', '0', hexChar (c.toNat / 16), hexChar (c.toNat % 16)]
      else [c]

/-- A text in quotes. -/
def quote (s : String) : String :=
  String.ofList ('"' :: s.toList.flatMap escapeChar ++ ['"'])

/-- A new line, this far in. -/
def newline (depth : Nat) : String := "\n" ++ String.ofList (List.replicate (2 * depth) ' ')

mutual

/-- The value as text, when its first line is `depth` steps in. -/
def render (depth : Nat) : Json → String
  | .null => "null"
  | .bool true => "true"
  | .bool false => "false"
  | .number text => text
  | .string text => quote (text.getD "")
  | .array [] => "[]"
  | .array (item :: items) =>
      "[" ++ newline (depth + 1) ++ render (depth + 1) item ++ renderItems (depth + 1) items
        ++ newline depth ++ "]"
  | .object [] => "\x7b\x7d"
  | .object (field :: fields) =>
      "\x7b" ++ newline (depth + 1) ++ renderField (depth + 1) field
        ++ renderFields (depth + 1) fields ++ newline depth ++ "\x7d"

/-- The items after the first. -/
def renderItems (depth : Nat) : List Json → String
  | [] => ""
  | item :: items => "," ++ newline depth ++ render depth item ++ renderItems depth items

/-- A field with its name. -/
def renderField (depth : Nat) : Option String × Json → String
  | (name, value) => quote (name.getD "") ++ ": " ++ render depth value

/-- The fields after the first. -/
def renderFields (depth : Nat) : List (Option String × Json) → String
  | [] => ""
  | field :: fields =>
      "," ++ newline depth ++ renderField depth field ++ renderFields depth fields

end

/-- The value as text. -/
def toText (value : Json) : String := render 0 value

end ContainerMounts.Json
