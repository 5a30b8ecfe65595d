import CodeFolding.Region
import CodeFolding.Text.Decimal
import CodeFolding.Text.Lines

/-!
The view of a source text with its folds: numbered rows, a marker where a region starts, and a
placeholder behind the first line of a folded block. Hidden lines have no row.
-/

set_option autoImplicit false

namespace CodeFolding

/-- Whether a view is coloured by terminal escapes. -/
inductive Style where
  | plain
  | coloured
  deriving DecidableEq, Repr

/-- The escape that selects the colour of a kind. -/
def Kind.colour : Kind → String
  | .fn => "\x1b[34m"
  | .struct => "\x1b[36m"
  | .enum => "\x1b[36m"
  | .impl => "\x1b[35m"
  | .trait => "\x1b[33m"
  | .mod => "\x1b[31m"
  | .imports => "\x1b[32m"

/-- A text in the colour of a kind. -/
def Style.paint (style : Style) (kind : Kind) (text : List Char) : List Char :=
  match style with
  | .plain => text
  | .coloured => "\x1b[2m".toList ++ kind.colour.toList ++ text ++ "\x1b[0m".toList

namespace View

/-- The lines that are shown: a last empty line is left out, unless it is the only one. -/
def shownLines (source : List Char) : List (List Char) :=
  let lines := splitLines source
  if lines.length > 1 ∧ lines.getLast? = some [] then lines.dropLast else lines

theorem length_shownLines (source : List Char) : (shownLines source).length =
    if (splitLines source).length > 1 ∧ (splitLines source).getLast? = some [] then
      (splitLines source).length - 1
    else (splitLines source).length := by
  simp only [shownLines]
  split
  · rw [List.length_dropLast]
  · rfl

theorem shownLines_eq_take (source : List Char) :
    shownLines source = (splitLines source).take (shownLines source).length := by
  simp only [shownLines]
  split
  · rw [List.length_dropLast, List.dropLast_eq_take]
  · rw [List.take_length]

/-- The marker of the region that starts on a row. -/
def marker (style : Style) : Option Region → List Char
  | none => [' ']
  | some r => style.paint r.kind (if r.folded then ['►'] else ['▼'])

/-- A text flush right in a column. -/
def padLeft (width : Nat) (text : List Char) : List Char :=
  List.replicate (width - text.length) ' ' ++ text

/-- What stands in front of a row. -/
def gutter (style : Style) (width : Nat) (start : Option Region) (number : List Char) : List Char :=
  marker style start ++ [' '] ++ padLeft width number ++ " | ".toList

/-- What stands behind the first line of a folded block. -/
def placeholder (style : Style) (r : Region) : List Char :=
  style.paint r.kind (" ... \x7b".toList ++ digits r.bodyLines ++ "\x7d lines ... ".toList)

/-- The row of the imports. -/
def importsRow (style : Style) (width : Nat) (r : Region) : List Char :=
  gutter style width (some r) [] ++
    style.paint r.kind
      ("use ... (".toList ++ digits (r.statements.getD 0) ++ " statements)".toList)

/-- The row of a line. -/
def lineRow (style : Style) (width : Nat) (regions : List Region) (n : Nat) (text : List Char) :
    List Char :=
  let starts := fun r : Region => !r.isImports && r.first == n
  gutter style width (regions.find? starts) (digits n) ++ text ++
    ((regions.find? fun r => starts r && r.folded).map (placeholder style)).getD []

/-- Whether a folded region hides a line. -/
def isHidden (regions : List Region) (n : Nat) : Bool := regions.any fun r => r.folded && r.hides n

/-- The rows of the lines from `n` on that nothing hides. -/
def lineRows (style : Style) (width : Nat) (regions : List Region) (n : Nat) :
    List (List Char) → List (List Char)
  | [] => []
  | text :: rest =>
    if isHidden regions n then lineRows style width regions (n + 1) rest
    else lineRow style width regions n text :: lineRows style width regions (n + 1) rest

/-- How many of the lines from `n` to `n + count - 1` are hidden. -/
def hiddenFrom (regions : List Region) (n : Nat) : Nat → Nat
  | 0 => 0
  | count + 1 => (if isHidden regions n then 1 else 0) + hiddenFrom regions (n + 1) count

/-- The width of the line numbers. -/
def numberWidth (source : List Char) : Nat := (digits (shownLines source).length).length

/-- The rows of the view. -/
def rows (style : Style) (source : List Char) (regions : List Region) : List (List Char) :=
  let width := numberWidth source
  ((regions.find? Region.isImports).map (importsRow style width)).toList ++
    lineRows style width regions 1 (shownLines source)

/-- How many lines the view hides. -/
def hidden (source : List Char) (regions : List Region) : Nat :=
  hiddenFrom regions 1 (shownLines source).length

/-- The text of the view: each row ends in a line end. -/
def render (style : Style) (source : List Char) (regions : List Region) : List Char :=
  (rows style source regions).flatMap (· ++ ['\n'])

end View

end CodeFolding
