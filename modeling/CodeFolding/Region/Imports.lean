import CodeFolding.Cell.Classify
import CodeFolding.Region

/-!
Import statements of a text.

A statement begins at a live `use` that stands alone and ends at the first live `;` outside its
braces, at a `}` that it did not open, or with the text. A run of attribute lines right above a
statement belongs to it. The search goes line by line: a line on which a statement goes on from
before is not searched for another.
-/

set_option autoImplicit false

namespace CodeFolding

namespace Cell

/-- A character behind which a `use` may stand. -/
def allowsUse : Option Char → Bool
  | none => true
  | some c => isBlank c || c = '(' || c = '[' || c = '{'

/-- Whether the cells begin with a `use` that stands alone; `before` is the character in front. -/
def startsUse (before : Option Char) : List Cell → Bool
  | u :: s :: e :: rest =>
    u.isLive && e.isLive && u.char = 'u' && s.char = 's' && e.char = 'e' && allowsUse before &&
      (match rest with
        | [] => true
        | c :: _ => isBlank c.char)
  | _ => false

/-- The cells from the first `use` that stands alone. -/
def fromUse? (before : Option Char) : List Cell → Option (List Cell)
  | [] => none
  | c :: rest => if startsUse before (c :: rest) then some (c :: rest) else fromUse? (some c.char) rest

/-- The depth of braces in a statement after more cells, counted in a word of 32 bits; none if the
statement ends among them. -/
def statementDepth (depth : Int32) : List Cell → Option Int32
  | [] => some depth
  | c :: rest =>
    if !c.isLive then statementDepth depth rest
    else if c.char = '{' then statementDepth (depth + 1) rest
    else if c.char = '}' then
      if depth - 1 < 0 then none else statementDepth (depth - 1) rest
    else if c.char = ';' ∧ depth = 0 then none
    else statementDepth depth rest

end Cell

/-- An attribute line: code at its start, and `#[` in front. -/
def Row.isAttribute (r : Row) : Bool :=
  !r.before.isInert && ['#', '['].isPrefixOf (trimStart r.text)

/-- What the search has found by a line and not yet finished. -/
inductive ImportSearch where
  /-- No statement is open, and this many attribute lines lie right above. -/
  | between (attributes : Nat)
  /-- A statement is open since a line, with this depth of braces. -/
  | within (first : Nat) (depth : Int32)
  deriving DecidableEq, Repr

namespace ImportSearch

/-- The search after line `n`, and the statement that ends there. -/
def step (n : Nat) (row : Row) : ImportSearch → ImportSearch × Option Span
  | .within first depth =>
    match Cell.statementDepth depth row.cells with
    | none => (.between 0, some ⟨first, n⟩)
    | some d => (.within first d, none)
  | .between attributes =>
    match Cell.fromUse? none row.cells with
    | some cells =>
      match Cell.statementDepth 0 cells with
      | none => (.between 0, some ⟨n - attributes, n⟩)
      | some d => (.within (n - attributes) d, none)
    | none => (.between (if row.isAttribute then attributes + 1 else 0), none)

/-- The statements of the lines from `n` on; one that is still open ends with the last line. -/
def spans (n : Nat) (s : ImportSearch) : List Row → List Span
  | [] =>
    match s with
    | .between _ => []
    | .within first _ => [⟨first, n - 1⟩]
  | row :: rest => (s.step n row).2.toList ++ spans (n + 1) (s.step n row).1 rest

end ImportSearch

/-- The lines of each import statement, in order. -/
def importSpans (rows : List Row) : List Span := ImportSearch.spans 1 (.between 0) rows

/-- Whether a line belongs to an import statement. -/
def ownsLine (spans : List Span) (line : Nat) : Bool := spans.any (·.contains line)

/-- The region of the import statements, if there are any. -/
def importRegion? (spans : List Span) (folded : Bool) : Option Region :=
  if spans.isEmpty then none else some (.ofImports spans folded)

end CodeFolding
