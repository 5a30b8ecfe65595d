import CodeFolding.Region.Declaration
import CodeFolding.Region.Imports
import CodeFolding.Region.Policy

/-!
Blocks of a text: a declaration's keyword with the braces that follow it.

The keyword of a line waits for the next live brace. It waits beyond its own line only if the line
goes on as a signature does. Braces are matched by a stack over the whole text; those on lines of
imports are matched too and take no keyword. A closing brace without a partner is passed over.
-/

set_option autoImplicit false

namespace CodeFolding

/-- A keyword and its line. -/
structure Keyword where
  line : Nat
  kind : Kind
  deriving DecidableEq, Repr

/-- An open brace: its line, and the keyword whose body it opens. -/
structure Brace where
  line : Nat
  keyword : Option Keyword
  deriving DecidableEq, Repr

/-- The open braces, innermost first, and the keyword that waits for its brace. -/
structure Nesting where
  braces : List Brace
  waiting : Option Keyword
  deriving DecidableEq, Repr

/-- The ends of a line after which a signature goes on in the next. -/
def signatureEnds : List String := ["->", ",", "(", "where", ")", ">"]

def continuesSignature (code : List Char) : Bool :=
  signatureEnds.any fun e => e.toList.isSuffixOf code

/-- The block of a brace that is closed on line `n` under `level` others. A block needs a keyword
and a later line. -/
def Brace.block? (policy : Policy) (n level : Nat) (b : Brace) : Option Region :=
  match b.keyword with
  | some k =>
    if b.line < n then some (.block k.kind k.line n b.line level (policy.folds k.kind)) else none
  | none => none

namespace Nesting

/-- No brace is open and no keyword waits. -/
def empty : Nesting := ⟨[], none⟩

/-- A live character of line `n`; `owned` says that the line belongs to an import. -/
def step (policy : Policy) (n : Nat) (owned : Bool) (s : Nesting) (char : Char) :
    Nesting × Option Region :=
  if char = '{' then
    if owned then (⟨⟨n, none⟩ :: s.braces, s.waiting⟩, none)
    else (⟨⟨n, s.waiting⟩ :: s.braces, none⟩, none)
  else if char = '}' then
    match s.braces with
    | [] => (s, none)
    | b :: rest => (⟨rest, s.waiting⟩, b.block? policy n rest.length)
  else (s, none)

/-- The live characters of line `n`, with the blocks that end among them. -/
def steps (policy : Policy) (n : Nat) (owned : Bool) (s : Nesting) :
    List Char → Nesting × List Region
  | [] => (s, [])
  | c :: rest =>
    let one := s.step policy n owned c
    let more := steps policy n owned one.1 rest
    (more.1, one.2.toList ++ more.2)

/-- The keyword of a line's declaration, if code comes before it and it is code itself. -/
def candidate? (n : Nat) (owned : Bool) (row : Row) : Option Keyword :=
  if owned || row.before.isInert then none
  else
    match Declaration.find? row.text with
    | some (offset, kind) => if Cell.liveAt row.cells offset then some ⟨n, kind⟩ else none
    | none => none

/-- At the end of line `n` its keyword is given up, unless a brace stands on the line or the line
goes on as a signature. -/
def endLine (n : Nat) (row : Row) (s : Nesting) : Nesting :=
  match s.waiting with
  | some k =>
    if k.line = n ∧ !Cell.hasLive row.cells '{' ∧ !continuesSignature (Cell.codeText row.cells) then
      ⟨s.braces, none⟩
    else s
  | none => s

/-- The live characters of a row. -/
def liveChars (row : Row) : List Char := (row.cells.filter Cell.isLive).map (·.char)

/-- Line `n`, with the blocks that end on it. -/
def line (policy : Policy) (n : Nat) (owned : Bool) (row : Row) (s : Nesting) :
    Nesting × List Region :=
  let begun : Nesting := ⟨s.braces, (candidate? n owned row).or s.waiting⟩
  let r := begun.steps policy n owned (liveChars row)
  (r.1.endLine n row, r.2)

/-- The blocks of the lines from `n` on, in the order of their ends. -/
def blocks (policy : Policy) (spans : List Span) (n : Nat) (s : Nesting) :
    List Row → List Region
  | [] => []
  | row :: rest =>
    let r := s.line policy n (ownsLine spans n) row
    r.2 ++ blocks policy spans (n + 1) r.1 rest

end Nesting

/-- The blocks of a text whose imports lie on the spans. -/
def blockRegions (policy : Policy) (spans : List Span) (rows : List Row) : List Region :=
  Nesting.blocks policy spans 1 .empty rows

end CodeFolding
