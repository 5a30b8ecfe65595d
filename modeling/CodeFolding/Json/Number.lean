import CodeFolding.Data

/-!
Numbers of JSON texts.

A number without point and exponent is whole if it fits into 64 bits. Any other is floating: as
many leading digits as fit into 64 bits, scaled by powers of ten in floating arithmetic. Minus zero
is floating.
-/

set_option autoImplicit false

namespace CodeFolding.Json

/-- A number as it is written: the digits before and behind the point, and the exponent. -/
structure Numeral where
  negative : Bool
  whole : List Char
  fraction : Option (List Char)
  exponent : Option (Bool × List Char)
  deriving DecidableEq, Repr

def digitValue (c : Char) : Nat := c.toNat - '0'.toNat

/-- Reads digits on to a significand as long as it fits into 64 bits; the digits left over. -/
def absorb (significand : Nat) : List Char → Nat × List Char
  | [] => (significand, [])
  | c :: rest =>
    let next := significand * 10 + digitValue c
    if next < 1 <<< 64 then absorb next rest else (significand, c :: rest)

/-- A power of ten as a floating number. -/
def tenTo (n : Nat) : Float := Float.ofScientific 1 false n

/-- Divides by a power of ten, by the greatest floating one as often as needed. -/
def scaleDown (x : Float) (n : Nat) : Float :=
  if n ≤ 308 then x / tenTo n
  else if x == 0 then x
  else scaleDown (x / tenTo 308) (n - 308)
termination_by n

/-- Multiplies or divides by a power of ten; none if the result is infinite. -/
def scale? (x : Float) (e : Int) : Option Float :=
  if e < 0 then some (scaleDown x e.natAbs)
  else if e.natAbs ≤ 308 then
    let y := x * tenTo e.natAbs
    if y.isInf then none else some y
  else if x == 0 then some x else none

namespace Numeral

/-- The significand, and the power of ten that the digits alone give it. -/
def significand (n : Numeral) : Nat × Int :=
  match absorb 0 n.whole with
  | (s, []) =>
    let fraction := n.fraction.getD []
    let (t, left) := absorb s fraction
    (t, -((fraction.length - left.length : Nat) : Int))
  | (s, left) =>
    let (t, left') := absorb s (n.fraction.getD [])
    (t, (left.length : Int) - (((n.fraction.getD []).length - left'.length : Nat) : Int))

/-- The written exponent; an exponent of more than 31 bits is only known to be huge. -/
def written (n : Numeral) : Option Int :=
  match n.exponent with
  | none => some 0
  | some (negative, ds) =>
    let e := Nat.ofDigitChars 10 ds 0
    if 1 <<< 31 ≤ e then none else some (if negative then -(e : Int) else e)

/-- The number without its sign as a floating one; none if it is too great. -/
def magnitude? (n : Numeral) : Option Float :=
  let (s, e) := n.significand
  match n.written with
  | some x => scale? (Float.ofNat s) (e + x)
  | none =>
    match n.exponent with
    | some (true, _) => some 0
    | _ => if s = 0 then some 0 else none

/-- The number that is written; void if it is too great. -/
def data (n : Numeral) : Data :=
  let w := Nat.ofDigitChars 10 n.whole 0
  if n.fraction.isNone ∧ n.exponent.isNone ∧ !n.negative ∧ w < 1 <<< 64 then .whole w
  else if n.fraction.isNone ∧ n.exponent.isNone ∧ n.negative ∧ 0 < w ∧ w ≤ 1 <<< 63 then
    .whole (-(w : Int))
  else
    match n.magnitude? with
    | some x => .floating (if n.negative then -x else x)
    | none => .void

end Numeral

end CodeFolding.Json
