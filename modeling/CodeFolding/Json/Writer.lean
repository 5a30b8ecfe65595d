import CodeFolding.Data
import CodeFolding.Number.Shortest
import CodeFolding.Text.Hex

/-!
Writing JSON texts, on one line or over many. Over many lines each item and each field has its own,
two blanks further in than what holds it; an empty list stays on its line.
-/

set_option autoImplicit false

namespace CodeFolding.Json

/-- A character within quotes. Quotes, backslashes and control characters are escaped. -/
def writeChar (c : Char) : List Char :=
  if c = '"' then ['\\', '"']
  else if c = '\\' then ['\\', '\\']
  else if c = '\x08' then ['\\', 'b']
  else if c = '\x0c' then ['\\', 'f']
  else if c = '\n' then ['\\', 'n']
  else if c = '\r' then ['\\', 'r']
  else if c = '\t' then ['\\', 't']
  else if c.toNat < 0x20 then ['\\', 'u', '0', '0', hexDigit (c.toNat / 16), hexDigit (c.toNat % 16)]
  else [c]

def writeText (cs : List Char) : List Char := '"' :: cs.flatMap writeChar ++ ['"']

/-- A floating number that is not finite is written as null. -/
def writeFloating (x : Float) : List Char := ((Binary.ofFloat x).text? true).getD "null".toList

/-- How the parts of a value are set out. -/
inductive Layout where
  | compact
  /-- The depth of the line on which the value starts. -/
  | pretty (depth : Nat)

namespace Layout

def deeper : Layout → Layout
  | .compact => .compact
  | .pretty depth => .pretty (depth + 1)

/-- What stands before a part and before the closing bracket. -/
def lineBreak : Layout → List Char
  | .compact => []
  | .pretty depth => '\n' :: List.replicate (2 * depth) ' '

def colon : Layout → List Char
  | .compact => [':']
  | .pretty _ => [':', ' ']

end Layout

mutual

def write (l : Layout) : Data → List Char
  | .null | .void => "null".toList
  | .bool b => (if b then "true" else "false").toList
  | .whole z => signedDigits z
  | .floating x => writeFloating x
  | .text cs => writeText cs
  | .list [] => "[]".toList
  | .list (v :: rest) =>
    '[' :: l.deeper.lineBreak ++ write l.deeper v ++ writeItems l.deeper rest ++ l.lineBreak ++ [']']
  | .object [] => "\x7b\x7d".toList
  | .object ((name, v) :: rest) =>
    '\x7b' :: l.deeper.lineBreak ++ writeText name ++ l.colon ++ write l.deeper v ++
      writeFields l.deeper rest ++ l.lineBreak ++ ['\x7d']

/-- The items after the first. -/
def writeItems (l : Layout) : List Data → List Char
  | [] => []
  | v :: rest => ',' :: l.lineBreak ++ write l v ++ writeItems l rest

/-- The fields after the first. -/
def writeFields (l : Layout) : List (List Char × Data) → List Char
  | [] => []
  | (name, v) :: rest =>
    ',' :: l.lineBreak ++ writeText name ++ l.colon ++ write l v ++ writeFields l rest

end

/-- A value over many lines. -/
def pretty (v : Data) : List Char := write (.pretty 0) v

/-- A value on one line. -/
def compact (v : Data) : List Char := write .compact v

end CodeFolding.Json
