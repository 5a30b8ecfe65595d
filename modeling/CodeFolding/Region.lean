/-!
Foldable regions of a source text, and folding them by hand.

A region is a declaration with its braces, or the one block that stands for all imports of the
file. The import block lies on line 0 and holds the spans of its statements. Of a region only
`folded` ever changes.
-/

set_option autoImplicit false

namespace CodeFolding

/-- What a region folds. -/
inductive Kind where
  | fn
  | struct
  | impl
  | enum
  | trait
  | mod
  | imports
  deriving DecidableEq, Repr

namespace Kind

/-- The kinds of declaration that open a block. -/
def declarations : List Kind := [.fn, .struct, .impl, .enum, .trait, .mod]

def all : List Kind := declarations ++ [.imports]

/-- The name under which a kind is written and read. -/
def name : Kind → String
  | .fn => "fn"
  | .struct => "struct"
  | .impl => "impl"
  | .enum => "enum"
  | .trait => "trait"
  | .mod => "mod"
  | .imports => "consolidated_use_block"

/-- The declaration that a word opens. -/
def ofKeyword? (word : List Char) : Option Kind :=
  declarations.find? fun k => k.name.toList == word

/-- The kind with a name, the import block included. -/
def ofName? (name : List Char) : Option Kind := all.find? fun k => k.name.toList == name

theorem ofName?_name (k : Kind) : ofName? k.name.toList = some k := by cases k <;> decide

end Kind

/-- Lines from `first` to `last`, both included. -/
structure Span where
  first : Nat
  last : Nat
  deriving DecidableEq, Repr

namespace Span

def contains (s : Span) (line : Nat) : Bool := s.first ≤ line && line ≤ s.last

def lineCount (s : Span) : Nat := s.last - s.first + 1

/-- How many lines some spans have together. -/
def totalLines : List Span → Nat
  | [] => 0
  | s :: rest => s.lineCount + totalLines rest

end Span

structure Region where
  kind : Kind
  /-- The line of the keyword. -/
  first : Nat
  /-- The line of the closing brace. -/
  last : Nat
  /-- The line of the opening brace. -/
  brace : Nat
  /-- How many braces are open around the block; -1 for the import block. -/
  level : Int
  folded : Bool
  /-- How many import statements are merged. -/
  statements : Option Nat
  /-- The lines of the merged statements, in order. -/
  spans : List Span
  deriving DecidableEq, Repr

namespace Region

/-- The region of a declaration. Its level is a word of 32 bits. -/
def block (kind : Kind) (first last brace level : Nat) (folded : Bool) : Region :=
  ⟨kind, first, last, brace, Int.bmod level 4294967296, folded, none, []⟩

/-- The region of all imports. -/
def ofImports (spans : List Span) (folded : Bool) : Region :=
  ⟨.imports, 0, 0, 0, -1, folded, some spans.length, spans⟩

def isImports (r : Region) : Bool := r.kind == .imports

def toggle (r : Region) : Region := { r with folded := !r.folded }

@[simp] theorem toggle_toggle (r : Region) : r.toggle.toggle = r := by simp [toggle]

/-- How many lines the merged statements cover. -/
def spanLines (r : Region) : Nat := Span.totalLines r.spans

/-- How many lines the region covers. -/
def lineCount (r : Region) : Nat :=
  if r.isImports then r.spanLines else r.last - r.first + 1

/-- How many lines lie between the braces, or in the merged statements. -/
def bodyLines (r : Region) : Nat :=
  if r.isImports then r.spanLines else r.last - r.brace - 1

/-- How many lines disappear when the region is folded; a signature of several lines counts. -/
def collapsedLines (r : Region) : Nat :=
  if r.isImports then r.spanLines else r.last - r.first - 1

/-- Whether folding hides a line. The first and the last line of a block stay visible. -/
def hides (r : Region) (line : Nat) : Bool :=
  if r.isImports then r.spans.any (·.contains line)
  else r.first < line && line < r.last

/-- Toggles the first region that starts on a line; whether there is one. -/
def toggleAt (line : Nat) : List Region → List Region × Bool
  | [] => ([], false)
  | r :: rest =>
    if r.first = line then (r.toggle :: rest, true)
    else (r :: (toggleAt line rest).1, (toggleAt line rest).2)

/-- Toggles at one line after the other; what each toggle says. -/
def toggleAll (regions : List Region) : List Nat → List Region × List Bool
  | [] => (regions, [])
  | line :: rest =>
    let once := toggleAt line regions
    let more := toggleAll once.1 rest
    (more.1, once.2 :: more.2)

/-- By first line, and the longer of two that start together before the shorter. -/
def precedes (a b : Region) : Bool := a.first < b.first || (a.first == b.first && b.last ≤ a.last)

end Region

end CodeFolding
