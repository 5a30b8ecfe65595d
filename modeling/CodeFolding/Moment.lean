import CodeFolding.Text.Decimal
import Std.Time.DateTime

/-!
The text of a moment: date and time without a zone offset, as in `2024-02-29T07:05:00.250+00:00`.
-/

set_option autoImplicit false

namespace CodeFolding.Moment

/-- A number in some digits at least, with zeros in front. -/
def padZeros (width n : Nat) : List Char :=
  List.replicate (width - (digits n).length) '0' ++ digits n

/-- A part of a second, given in nanoseconds, in as many groups of three places as it needs. -/
def fraction (nanos : Nat) : List Char :=
  if nanos = 0 then []
  else if nanos % 1000000 = 0 then '.' :: padZeros 3 (nanos / 1000000)
  else if nanos % 1000 = 0 then '.' :: padZeros 6 (nanos / 1000)
  else '.' :: padZeros 9 nanos

def text (t : Std.Time.PlainDateTime) : List Char :=
  padZeros 4 t.date.year.toInt.toNat ++ '-' :: padZeros 2 t.date.month.val.toNat
    ++ '-' :: padZeros 2 t.date.day.val.toNat
    ++ 'T' :: padZeros 2 t.time.hour.val.toNat
    ++ ':' :: padZeros 2 t.time.minute.val.toNat
    ++ ':' :: padZeros 2 t.time.second.val.toNat
    ++ fraction t.time.nanosecond.val.toNat ++ "+00:00".toList

end CodeFolding.Moment
