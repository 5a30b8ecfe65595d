import CodeFolding.Text.Blank
import CodeFolding.Text.Utf8

/-!
Cells: the characters of a line, each with its place and what it belongs to.

Braces and keywords count only in live cells, those that are code and not part of a comment or of a
literal.
-/

set_option autoImplicit false

namespace CodeFolding

/-- What a character of a line belongs to. -/
inductive Role where
  | code
  | lineComment
  | blockComment
  | literal
  deriving DecidableEq, Repr

/-- A character of a line: `offset` counts the UTF-8 bytes before it. -/
structure Cell where
  offset : Nat
  char : Char
  role : Role
  deriving DecidableEq, Repr

namespace Cell

def isLive (c : Cell) : Bool := c.role == .code

/-- Whether a live character starts at a byte offset. -/
def liveAt (cells : List Cell) (offset : Nat) : Bool :=
  match cells.find? (·.offset == offset) with
  | some c => c.isLive
  | none => false

def hasLive (cells : List Cell) (char : Char) : Bool :=
  cells.any fun c => c.isLive && c.char == char

/-- The text up to the last live character that is not blank, without the blanks in front. -/
def codeText (cells : List Cell) : List Char :=
  let upTo := (cells.reverse.dropWhile fun c => !(c.isLive && !isBlank c.char)).reverse
  trimStart (upTo.map (·.char))

end Cell

end CodeFolding
