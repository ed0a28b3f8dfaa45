/-
ContainerMounts.MountTable.Mountinfo — the text in which the kernel gives
its table of mounts.

A line is a record: six fields and optional ones, a dash, then three
fields, all with one space between:

    36 35 98:0 /mnt1 /mnt2 rw,noatime master:1 - ext3 /dev/root rw,errors=continue

Blanks and backslashes inside a field are written as a backslash and
three octal digits. `Mountinfo.parse` reads the text; blank lines do not
count.
-/
import ContainerMounts.Error
import ContainerMounts.MountTable
import ContainerMounts.Text.Lines

namespace ContainerMounts.Mountinfo

/-- The byte is an octal digit. -/
def isOctal (b : UInt8) : Bool := 0x30 ≤ b && b ≤ 0x37

/-- The value of an octal digit. -/
def octalValue (b : UInt8) : Nat := b.toNat - 0x30

/-- The number written by three octal digits. -/
def octalNumber (a b c : UInt8) : Nat := (octalValue a * 8 + octalValue b) * 8 + octalValue c

/-- The field without its escapes. A backslash that three octal digits of
a byte do not follow stands for itself. -/
def unescape : List UInt8 → List UInt8
  | [] => []
  | x :: rest =>
      if x = 0x5C then
        match rest with
        | a :: b :: c :: tail =>
            if isOctal a && isOctal b && isOctal c && octalNumber a b c < 256 then
              UInt8.ofNat (octalNumber a b c) :: unescape tail
            else x :: unescape (a :: b :: c :: tail)
        | [a, b] => [x, a, b]
        | [a] => [x, a]
        | [] => [x]
      else x :: unescape rest

/-- The bytes that a field stands for. -/
def fieldBytes (field : List Char) : List UInt8 := unescape (Utf8.encode field)

/-- The options of a field. -/
def fieldOptions (field : List Char) : List String :=
  MountRecord.optionSet ((pieces ',' field).map String.ofList)

/-- The record of a line, if the line has the fields of one. -/
def record? (line : List Char) : Option MountRecord := do
  let (head, tail) ← Text.cutAt? [' ', '-', ' '] line
  let fields := pieces ' ' head
  let target ← fields[4]?
  let vfsOptions ← fields[5]?
  let rest := pieces ' ' tail
  let fsType ← rest[0]?
  let source ← rest[1]?
  return {
    target := ⟨fieldBytes target⟩
    fsType := String.ofList fsType
    source := Utf8.lossy (fieldBytes source)
    vfsOptions := fieldOptions vfsOptions
    fsOptions := fieldOptions (rest[2]?.getD []) }

/-- The record of a line. -/
def record (line : List Char) : Except Error MountRecord :=
  match record? line with
  | some r => .ok r
  | none => .error (.serialization ("malformed mountinfo line: " ++ String.ofList line))

/-- The records of the text, up to its first malformed line. -/
def parse (text : String) : Except Error MountTable :=
  ((Text.lines text.toList).filter fun line => !line.all Text.isBlank).mapM record

end ContainerMounts.Mountinfo
