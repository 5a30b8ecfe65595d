import CodeFolding.Data

/-!
Taking records out of data.

A record is an object, whose other fields do not matter, or a list of the fields in order. Of each
field there is at most one.
-/

set_option autoImplicit false

namespace CodeFolding.Data

/-- The field of an object with a name; none at all if there are two. -/
def field? (name : List Char) (fields : List (List Char × Data)) : Option (Option Data) :=
  match fields.filter fun f => f.1 == name with
  | [] => some none
  | [f] => some (some f.2)
  | _ => none

/-- The fields of a record with some names, in order. `long` says whether a list may hold more. -/
def slots? (long : Bool) (names : List String) : Data → Option (List (Option Data))
  | .object fields => names.mapM fun name => field? name.toList fields
  | .list items =>
    if !long && names.length < items.length then none
    else some ((items.map some ++ List.replicate names.length none).take names.length)
  | _ => none

def bool? : Data → Option Bool
  | .bool b => some b
  | _ => none

def text? : Data → Option (List Char)
  | .text cs => some cs
  | _ => none

/-- A whole number that is not negative. -/
def nat? : Data → Option Nat
  | .whole (.ofNat n) => some n
  | _ => none

/-- A whole number of 32 bits with a sign. -/
def int32? : Data → Option Int
  | .whole z => if -2147483648 ≤ z ∧ z < 2147483648 then some z else none
  | _ => none

/-- A floating number; a whole one counts as floating. -/
def float? : Data → Option Float
  | .whole z => some (if z < 0 then -Float.ofNat z.natAbs else Float.ofNat z.natAbs)
  | .floating x => some x
  | _ => none

/-- A list whose items are all of one kind. -/
def list? {α : Type} (item? : Data → Option α) : Data → Option (List α)
  | .list items => items.mapM item?
  | _ => none

/-- A value that may be null. -/
def nullable? {α : Type} (value? : Data → Option α) : Data → Option (Option α)
  | .null => some none
  | d => (value? d).map some

/-- A field that may be missing. -/
def optional? {α : Type} (default : α) (value? : Data → Option α) : Option Data → Option α
  | none => some default
  | some d => value? d

end CodeFolding.Data
