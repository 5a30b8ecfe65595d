/-!
Floating numbers of 64 bits, taken apart into whole numbers.
-/

set_option autoImplicit false

namespace CodeFolding

/-- A floating number: its sign, and a mantissa that counts units of a power of two. -/
inductive Binary where
  | nan
  | infinite (negative : Bool)
  | finite (negative : Bool) (mantissa : Nat) (exponent : Int)
  deriving DecidableEq, Repr

namespace Binary

/-- Eleven bits of exponent behind the sign, and fifty-two of the mantissa behind them. -/
def ofFloat (x : Float) : Binary :=
  let bits := x.toBits.toNat
  let negative := decide (1 <<< 63 ≤ bits)
  let exponent : Nat := bits / (1 <<< 52) % 2048
  let fraction := bits % (1 <<< 52)
  if exponent = 2047 then if fraction = 0 then .infinite negative else .nan
  else if exponent = 0 then .finite negative fraction (-1074)
  else .finite negative ((1 <<< 52) + fraction) (exponent - 1075)

end Binary

/-- A quotient of whole numbers, for exact arithmetic on positive values. -/
structure Ratio where
  num : Nat
  den : Nat
  deriving DecidableEq, Repr

namespace Ratio

/-- `n` units of `base ^ exponent`. -/
def scaled (n base : Nat) (exponent : Int) : Ratio :=
  if exponent < 0 then ⟨n, Nat.pow base exponent.natAbs⟩
  else ⟨n * Nat.pow base exponent.natAbs, 1⟩

/-- The value in units of `10 ^ k`. -/
def inTens (r : Ratio) (k : Int) : Ratio :=
  if k < 0 then ⟨r.num * Nat.pow 10 k.natAbs, r.den⟩
  else ⟨r.num, r.den * Nat.pow 10 k.natAbs⟩

def floor (r : Ratio) : Nat := r.num / r.den

/-- The nearest whole number; a half goes to the even neighbour. -/
def roundEven (r : Ratio) : Nat :=
  let q := r.num / r.den
  let twice := 2 * (r.num % r.den)
  if twice < r.den then q
  else if r.den < twice then q + 1
  else if q % 2 = 0 then q else q + 1

end Ratio

end CodeFolding
