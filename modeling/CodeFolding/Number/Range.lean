import CodeFolding.Text.Decimal

/-!
The range of floating numbers, for decimals given by their digits and a power of ten.
-/

set_option autoImplicit false

namespace CodeFolding

/-- Whether digits times a power of ten stay below what rounds to infinity. -/
def isFiniteDecimal (ds : List Char) (e : Int) : Bool :=
  let n := Nat.ofDigitChars 10 ds 0
  if n = 0 then true
  else
    let magnitude : Int := (digits n).length + e
    if magnitude < 300 then true
    else if 310 < magnitude then false
    else if e < 0 then decide (n < ((1 <<< 1024) - (1 <<< 970)) * Nat.pow 10 e.natAbs)
    else decide (n * Nat.pow 10 e.natAbs < (1 <<< 1024) - (1 <<< 970))

/-- The nearest floating number. -/
def floatOfDecimal (ds : List Char) (e : Int) : Float :=
  let n := Nat.ofDigitChars 10 ds 0
  if !isFiniteDecimal ds e then 1.0 / 0.0
  else if n = 0 ∨ ((digits n).length : Int) + e < -400 then 0
  else Float.ofScientific n (e < 0) e.natAbs

end CodeFolding
