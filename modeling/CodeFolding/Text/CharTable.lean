/-!
Sets of characters given by a sorted table of code point ranges.

The tables of this library hold version 17 of Unicode, unless they say otherwise.
-/

set_option autoImplicit false

namespace CodeFolding

/-- Ranges of code points, both ends included, in increasing order. -/
abbrev CharTable := List (Nat × Nat)

/-- The table is sorted, so the search ends at the first range that starts beyond the code point. -/
def CharTable.covers : CharTable → Nat → Bool
  | [], _ => false
  | (lo, hi) :: rest, n => if n < lo then false else n ≤ hi || covers rest n

def CharTable.has (t : CharTable) (c : Char) : Bool := t.covers c.toNat

end CodeFolding
