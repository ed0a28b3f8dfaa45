/-
ContainerMounts.Text.Lines — a text as lines.

A line ends at a line feed, and a carriage return before it belongs to
the line's end too. What follows the last line feed is a line unless it
is empty.
-/
import ContainerMounts.Text.Pieces

namespace ContainerMounts.Text

/-- The line without a carriage return at its end. -/
def stripReturn (line : List Char) : List Char :=
  if line.getLast? = some '\r' then line.dropLast else line

/-- The lines of the text. -/
def lines (text : List Char) : List (List Char) :=
  let runs := pieces '\n' text
  runs.dropLast.map stripReturn
    ++ (match runs.getLast? with
        | some [] => []
        | some last => [last]
        | none => [])

/-- The code points of blank characters, as first and last of each run. -/
def blankRuns : List (Nat × Nat) :=
  [(0x09, 0x0D), (0x20, 0x20), (0x85, 0x85), (0xA0, 0xA0), (0x1680, 0x1680), (0x2000, 0x200A),
   (0x2028, 0x2029), (0x202F, 0x202F), (0x205F, 0x205F), (0x3000, 0x3000)]

/-- The character has the property White_Space. -/
def isBlank (c : Char) : Bool := blankRuns.any fun run => run.1 ≤ c.toNat && c.toNat ≤ run.2

/-- The text before the first occurrence of `mark` and the text after it. -/
def cutAt? (mark : List Char) : List Char → Option (List Char × List Char)
  | [] => if mark.isEmpty then some ([], []) else none
  | c :: rest =>
      if mark.isPrefixOf (c :: rest) then some ([], (c :: rest).drop mark.length)
      else (cutAt? mark rest).map fun (before, after) => (c :: before, after)

end ContainerMounts.Text
