import CodeFolding.Number.Binary
import CodeFolding.Text.Decimal

/-!
The shortest decimal that reads back as a floating number.

The decimals with one digit, two digits and so on form finer and finer grids. On each grid only the
two neighbours of the value can lie in the interval of numbers that round to it; the first grid
with a neighbour inside gives the digits, and of two neighbours the nearer is taken.
-/

set_option autoImplicit false

namespace CodeFolding

/-- Digits and the power of ten of the last one. -/
structure Decimal where
  digits : Nat
  exponent : Int
  deriving DecidableEq, Repr

namespace Decimal

/-- The numbers that round to a floating number, in quarters of its unit; the ends belong to them
if its mantissa is even. -/
structure Interval where
  lo : Nat
  value : Nat
  hi : Nat
  exponent : Int
  closed : Bool

/-- Below a power of two the neighbours lie half as far apart. -/
def Interval.around (mantissa : Nat) (exponent : Int) : Interval :=
  let lo := if mantissa = 1 <<< 52 ∧ -1074 < exponent then 4 * mantissa - 1 else 4 * mantissa - 2
  ⟨lo, 4 * mantissa, 4 * mantissa + 2, exponent - 2, mantissa % 2 == 0⟩

/-- Whether `n` units of `10 ^ k` lie in the interval. -/
def Interval.holds (i : Interval) (k : Int) (n : Nat) : Bool :=
  let lo := (Ratio.scaled i.lo 2 i.exponent).inTens k
  let hi := (Ratio.scaled i.hi 2 i.exponent).inTens k
  if i.closed then lo.num ≤ n * lo.den && n * hi.den ≤ hi.num
  else lo.num < n * lo.den && n * hi.den < hi.num

/-- The neighbour of the value in units of `10 ^ k` that lies in the interval, the nearer of two. -/
def Interval.neighbour? (i : Interval) (k : Int) : Option Nat :=
  let v := (Ratio.scaled i.value 2 i.exponent).inTens k
  let q := v.floor
  match i.holds k q, i.holds k (q + 1) with
  | true, true => some v.roundEven
  | true, false => some q
  | false, true => some (q + 1)
  | false, false => none

/-- The power of ten of the first digit of a value. -/
def leadingExponent (v : Ratio) : Int :=
  ((CodeFolding.digits (v.num * Nat.pow 10 340 / v.den)).length : Int) - 341

/-- Looks through the grids of `10 ^ k`, `10 ^ (k - 1)` and so on. -/
def search (i : Interval) (k : Int) : Nat → Decimal
  | 0 => ⟨(Ratio.scaled i.value 2 i.exponent).inTens k |>.floor, k⟩
  | more + 1 =>
    match i.neighbour? k with
    | some n => ⟨n, k⟩
    | none => search i (k - 1) more

/-- Drops zeros at the end of the digits; `fuel` bounds their number. -/
def trim : Nat → Decimal → Decimal
  | 0, d => d
  | fuel + 1, d =>
    if d.digits % 10 = 0 ∧ d.digits ≠ 0 then trim fuel ⟨d.digits / 10, d.exponent + 1⟩ else d

/-- The shortest decimal for a positive mantissa. Seventeen digits always suffice. -/
def shortest (mantissa : Nat) (exponent : Int) : Decimal :=
  trim 20 (search (.around mantissa exponent)
    (leadingExponent (Ratio.scaled mantissa 2 exponent)) 17)

/-- The text of an exponent, with or without a plus sign. -/
def exponentText (plus : Bool) (e : Int) : List Char :=
  'e' :: (if plus ∧ 0 ≤ e then '+' :: signedDigits e else signedDigits e)

/-- A decimal written out where its first digit stands less than sixteen places before and at most
five places behind the point, and with an exponent elsewhere. -/
def text (plus : Bool) (d : Decimal) : List Char :=
  let ds := CodeFolding.digits d.digits
  let point : Int := ds.length + d.exponent
  if 0 ≤ d.exponent ∧ point ≤ 16 then
    ds ++ List.replicate d.exponent.natAbs '0' ++ ".0".toList
  else if 0 < point ∧ point ≤ 16 then
    ds.take point.natAbs ++ '.' :: ds.drop point.natAbs
  else if -5 < point ∧ point ≤ 0 then
    "0.".toList ++ List.replicate point.natAbs '0' ++ ds
  else
    match ds with
    | [] => []
    | [c] => c :: exponentText plus (point - 1)
    | c :: rest => c :: '.' :: rest ++ exponentText plus (point - 1)

end Decimal

/-- The shortest text of a finite floating number; `plus` says whether a positive exponent has a
sign. -/
def Binary.text? (plus : Bool) : Binary → Option (List Char)
  | .finite negative mantissa exponent =>
    let body := if mantissa = 0 then "0.0".toList
      else (Decimal.shortest mantissa exponent).text plus
    some (if negative then '-' :: body else body)
  | _ => none

end CodeFolding
