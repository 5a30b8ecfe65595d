import CodeFolding.Cell
import CodeFolding.Text.Word

/-!
Classification of a line, one character after the other.

A comment or a literal that is open at the end of a line goes on in the next one; `Carry` is what
a line hands to the next. Within a line the reader is in one of the modes of `Mode`, sees the
characters behind it and those still to come, and gives each character one role.
-/

set_option autoImplicit false

namespace CodeFolding

/-- What is still open at the end of a line: a block comment, and the literal that goes on once no
comment is open, by its closing character. -/
structure Carry where
  inBlockComment : Bool
  delimiter : Option Char
  deriving DecidableEq, Repr

namespace Carry

/-- Nothing is open. -/
def neutral : Carry := ⟨false, none⟩

def inLiteral (s : Carry) : Bool := s.delimiter.isSome

/-- The next line starts inside a comment or a literal. -/
def isInert (s : Carry) : Bool := s.inBlockComment || s.inLiteral

end Carry

/-- What the reader of a line is in. A block comment remembers the literal under it. -/
inductive Mode where
  | code
  | lineComment
  /-- Behind the `/` of a comment's `/*`. -/
  | commentOpening (under : Option Char)
  | blockComment (under : Option Char)
  /-- Behind the `*` of a comment's `*/`. -/
  | commentClosing (under : Option Char)
  | literal (delimiter : Char)
  /-- Behind a backslash of a literal. -/
  | escaped (delimiter : Char)
  /-- Between the `r` of a raw literal and its quote. -/
  | rawOpening
  deriving DecidableEq, Repr

namespace Mode

/-- A literal if one is open, else code. -/
def ofDelimiter : Option Char → Mode
  | some d => .literal d
  | none => .code

def ofCarry (s : Carry) : Mode :=
  if s.inBlockComment then .blockComment s.delimiter else ofDelimiter s.delimiter

/-- What the end of a line leaves open. -/
def carry : Mode → Carry
  | .code | .lineComment => .neutral
  | .commentOpening u | .blockComment u => ⟨true, u⟩
  | .commentClosing u => ⟨false, u⟩
  | .literal d | .escaped d => ⟨false, some d⟩
  | .rawOpening => ⟨false, some '"'⟩

end Mode

/-- Whether a single quote before this text opens a literal: `'a'` and `'{'` do, the lifetime `'a`
and the label `'outer` do not. -/
def opensQuoted : List Char → Bool
  | [] => true
  | c :: rest =>
    if startsIdentifier c then ((c :: rest).dropWhile continuesIdentifier).head? == some '\''
    else true

/-- Whether an `r` behind this text, nearest character first, can start a raw literal: it is not
the last letter of an identifier, except after a `b` that stands alone. -/
def allowsRaw : List Char → Bool
  | [] => true
  | ['b'] => true
  | 'b' :: c :: _ => !continuesIdentifier c
  | c :: _ => !continuesIdentifier c

/-- Whether an `r` before this text starts a raw literal: a quote follows, after any number of
hash signs. -/
def opensRaw (rest : List Char) : Bool := (rest.dropWhile (· == '#')).head? == some '"'

namespace Mode

/-- The role of the next character `c` and the mode after it; `behind` is the line before it,
nearest character first, and `rest` the line after it. -/
def step (behind : List Char) (c : Char) (rest : List Char) : Mode → Role × Mode
  | .lineComment => (.lineComment, .lineComment)
  | .commentOpening u => (.blockComment, .blockComment u)
  | .blockComment u =>
    if c = '*' ∧ rest.head? = some '/' then (.blockComment, .commentClosing u)
    else (.blockComment, .blockComment u)
  | .commentClosing u => (.blockComment, ofDelimiter u)
  | .literal d =>
    if c = '\\' ∧ rest ≠ [] then (.literal, .escaped d)
    else if c = d then (.literal, .code)
    else (.literal, .literal d)
  | .escaped d => (.literal, .literal d)
  | .rawOpening => (.literal, if c = '"' then .literal '"' else .rawOpening)
  | .code =>
    if c = '/' ∧ rest.head? = some '/' then (.lineComment, .lineComment)
    else if c = '/' ∧ rest.head? = some '*' then (.blockComment, .commentOpening none)
    else if c = '"' then (.literal, .literal '"')
    else if c = '\'' ∧ opensQuoted rest then (.literal, .literal '\'')
    else if c = 'r' ∧ allowsRaw behind ∧ opensRaw rest then (.literal, .rawOpening)
    else (.code, .code)

end Mode

/-- The cells of the rest of a line and the mode at its end. -/
def classifyFrom (behind : List Char) (offset : Nat) (m : Mode) : List Char → List Cell × Mode
  | [] => ([], m)
  | c :: rest =>
    let next := m.step behind c rest
    let after := classifyFrom (c :: behind) (offset + c.utf8Size) next.2 rest
    (⟨offset, c, next.1⟩ :: after.1, after.2)

/-- The cells of a line and what it leaves open. -/
def classify (s : Carry) (line : List Char) : List Cell × Carry :=
  let r := classifyFrom [] 0 (.ofCarry s) line
  (r.1, r.2.carry)

/-- Every character has one cell, in order. -/
@[simp] theorem classifyFrom_chars (behind : List Char) (offset : Nat) (m : Mode)
    (line : List Char) : (classifyFrom behind offset m line).1.map (·.char) = line := by
  induction line generalizing behind offset m with
  | nil => rfl
  | cons c rest ih => simp [classifyFrom, ih]

@[simp] theorem classify_chars (s : Carry) (line : List Char) :
    (classify s line).1.map (·.char) = line := classifyFrom_chars [] 0 _ line

/-- A line of a text: what is open before it, and its cells. -/
structure Row where
  text : List Char
  before : Carry
  cells : List Cell
  deriving DecidableEq, Repr

namespace Row

/-- The rows of some lines, with what is open before the first. -/
def ofLines (s : Carry) : List (List Char) → List Row
  | [] => []
  | line :: rest => ⟨line, s, (classify s line).1⟩ :: ofLines (classify s line).2 rest

@[simp] theorem length_ofLines (s : Carry) (lines : List (List Char)) :
    (ofLines s lines).length = lines.length := by
  induction lines generalizing s with
  | nil => rfl
  | cons line rest ih => simp [ofLines, ih]

end Row

end CodeFolding
