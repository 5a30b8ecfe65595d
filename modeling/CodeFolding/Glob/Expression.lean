import CodeFolding.Glob.Shape
import CodeFolding.Text.Decimal
import CodeFolding.Text.Hex

/-!
The regular expressions that glob patterns stand for, and how deep they nest.

Patterns of an extended or a general shape are used as expressions. One that nests too deep cannot
be used, however well it reads.
-/

set_option autoImplicit false

namespace CodeFolding.Glob

/-- Characters that stand for themselves only behind a backslash. -/
def isSign (c : Char) : Bool := "\\.+*?()|[]\x7b\x7d^$#&-~".toList.contains c

/-- The text of a byte. -/
def byteText (b : UInt8) : List Char :=
  let n := b.toNat
  if n < 0x80 then
    if isSign (Char.ofNat n) then ['\\', Char.ofNat n] else [Char.ofNat n]
  else ['\\', 'x', hexDigit (n / 16), hexDigit (n % 16)]

def charText (c : Char) : List Char := (String.utf8EncodeChar c).flatMap byteText

def rangeText (range : Char × Char) : List Char :=
  if range.1 = range.2 then charText range.1 else charText range.1 ++ '-' :: charText range.2

mutual

def tokenText (crossing : Bool) : GlobToken → List Char
  | .char c => charText c
  | .anyOne => (if crossing then "." else "[^/]").toList
  | .anyMany => (if crossing then ".*" else "[^/]*").toList
  | .anyDirs => "(?:/?|.*/)".toList
  | .anyBelow => "/.*".toList
  | .anyBetween => "(?:/|/.*/)".toList
  | .oneOf negated ranges =>
    '[' :: (if negated then ['^'] else []) ++ ranges.flatMap rangeText ++ [']']
  | .either branches =>
    if branchesAreVoid branches then []
    else "(?:".toList ++ branchesText crossing branches ++ [')']

def tokensText (crossing : Bool) : List GlobToken → List Char
  | [] => []
  | t :: rest => tokenText crossing t ++ tokensText crossing rest

/-- The branches that stand for something, set apart by bars. -/
def branchesText (crossing : Bool) : List (List GlobToken) → List Char
  | [] => []
  | b :: rest =>
    if areVoid b then branchesText crossing rest
    else if branchesAreVoid rest then tokensText crossing b
    else tokensText crossing b ++ '|' :: branchesText crossing rest

end

/-- The expression of a pattern. -/
def expression (g : Glob) : List Char :=
  "(?-u)^".toList ++ tokensText g.crossing g.tokens ++ ['$']

/-- How many parts stand side by side, and how deep the deepest of them nests. -/
structure Extent where
  parts : Nat
  depth : Nat
  deriving DecidableEq, Repr

namespace Extent

def void : Extent := ⟨0, 0⟩

def add (a b : Extent) : Extent := ⟨a.parts + b.parts, max a.depth b.depth⟩

/-- The depth of the parts as one; several parts together nest once more. -/
def joined (e : Extent) : Nat := if e.parts ≤ 1 then e.depth else e.depth + 1

end Extent

/-- How many items of a class a range is. -/
def rangeItems (range : Char × Char) : Nat :=
  if range.1 = range.2 then range.1.utf8Size else range.1.utf8Size + range.2.utf8Size - 1

def countItems : List (Char × Char) → Nat
  | [] => 0
  | r :: rest => rangeItems r + countItems rest

mutual

def tokenExtent (crossing : Bool) : GlobToken → Extent
  | .char c => ⟨c.utf8Size, 0⟩
  | .anyOne => ⟨1, if crossing then 0 else 1⟩
  | .anyMany => ⟨1, if crossing then 1 else 2⟩
  | .anyDirs => ⟨1, 4⟩
  | .anyBelow => ⟨2, 1⟩
  | .anyBetween => ⟨1, 4⟩
  | .oneOf _ ranges => ⟨1, 1 + (⟨countItems ranges, 0⟩ : Extent).joined⟩
  | .either branches =>
    if branchesAreVoid branches then .void else ⟨1, 1 + (branchesExtent crossing branches).joined⟩

def tokensExtent (crossing : Bool) : List GlobToken → Extent
  | [] => .void
  | t :: rest => (tokenExtent crossing t).add (tokensExtent crossing rest)

/-- Each branch that stands for something is one part. -/
def branchesExtent (crossing : Bool) : List (List GlobToken) → Extent
  | [] => .void
  | b :: rest =>
    if areVoid b then branchesExtent crossing rest
    else (⟨1, (tokensExtent crossing b).joined⟩ : Extent).add (branchesExtent crossing rest)

end

/-- How deep the expression of a pattern nests. -/
def depth (g : Glob) : Nat := 1 + (tokensExtent g.crossing g.tokens).depth

/-- How deep an expression may nest. -/
def deepest : Nat := 250

def isTooDeep (g : Glob) : Bool := deepest < g.depth

/-- A pattern that nests too deep. -/
inductive DepthFault where
  /-- One of extended shape, by its expression. -/
  | extended (expression : List Char)
  /-- One of general shape, by its number among these. -/
  | general (number : Nat)
  deriving DecidableEq, Repr

namespace DepthFault

def message : DepthFault → List Char
  | .extended e => "error parsing glob '".toList ++ e ++ "': error parsing pattern 0".toList
  | .general n => "error parsing pattern ".toList ++ digits n

end DepthFault

/-- The first of some patterns that nests too deep. Those of extended shape come first. -/
def depthFault? (globs : List Glob) : Option DepthFault :=
  match globs.find? fun g => g.shape == .extended && g.isTooDeep with
  | some g => some (.extended g.expression)
  | none => ((globs.filter (·.shape == .general)).findIdx? isTooDeep).map .general

end CodeFolding.Glob
