import CodeFolding.Number.Binary
import CodeFolding.Text.Decimal

/-!
Floating numbers with a fixed number of decimal places. The exact value is rounded, and a half goes
to the even neighbour.
-/

set_option autoImplicit false

namespace CodeFolding

/-- A count of units of `10 ^ -places`, with its point. -/
def fixedDigits (places n : Nat) : List Char :=
  let unit := Nat.pow 10 places
  let fraction := digits (n % unit)
  digits (n / unit) ++ '.' :: List.replicate (places - fraction.length) '0' ++ fraction

/-- The text of a floating number with some places behind the point. -/
def Binary.fixed (places : Nat) : Binary → List Char
  | .nan => "NaN".toList
  | .infinite negative => (if negative then "-inf" else "inf").toList
  | .finite negative mantissa exponent =>
    let r := Ratio.scaled mantissa 2 exponent
    let body := fixedDigits places (Ratio.roundEven ⟨r.num * Nat.pow 10 places, r.den⟩)
    if negative then '-' :: body else body

end CodeFolding
