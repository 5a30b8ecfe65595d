import CodeFolding.Data
import CodeFolding.Number.Range
import CodeFolding.Toml.Text

/-!
Numbers, dates and words of TOML.
-/

set_option autoImplicit false

namespace CodeFolding.Toml

/-- Digits, at least one, with single underscores between them. -/
def readDigits (isDigit : Char → Bool) : List Char → Option (List Char × List Char)
  | [] => none
  | c :: rest => if isDigit c then some (more c rest) else none
where
  more (c : Char) : List Char → List Char × List Char
    | [] => ([c], [])
    | '_' :: d :: rest =>
      if isDigit d then (c :: (more d rest).1, (more d rest).2) else ([c], '_' :: d :: rest)
    | d :: rest => if isDigit d then (c :: (more d rest).1, (more d rest).2) else ([c], d :: rest)

/-- The digits of a decimal whole number: a zero alone, or digits without a zero in front. -/
def readWhole : List Char → Option (List Char × List Char)
  | '0' :: rest => some (['0'], rest)
  | cs => readDigits Char.isDigit cs

/-- A whole number of 64 bits with a sign. -/
def whole? (z : Int) : Option Data :=
  if -9223372036854775808 ≤ z ∧ z < 9223372036854775808 then some (.whole z) else none

def isDigitIn (base : Nat) (c : Char) : Bool := ((hexValue? c).map fun d => decide (d < base)).getD false

/-- The digits of a whole number in another base, behind its mark. -/
def readBased (base : Nat) (cs : List Char) : Option (Data × List Char) :=
  (readDigits (isDigitIn base) cs).bind fun r =>
    let n := r.1.foldl (fun n c => n * base + (hexValue? c).getD 0) 0
    (whole? n).map fun d => (d, r.2)

def readInteger : List Char → Option (Data × List Char)
  | '0' :: 'x' :: rest => readBased 16 rest
  | '0' :: 'o' :: rest => readBased 8 rest
  | '0' :: 'b' :: rest => readBased 2 rest
  | cs =>
    let (negative, unsigned) := splitSign cs
    (readWhole unsigned).bind fun r =>
      let n : Int := Nat.ofDigitChars 10 r.1 0
      (whole? (if negative then -n else n)).map fun d => (d, r.2)

/-- The point and the digits behind it. -/
def readFraction? : List Char → Option (List Char × List Char)
  | '.' :: rest => readDigits Char.isDigit rest
  | _ => none

def readExponent? : List Char → Option (Int × List Char)
  | [] => none
  | c :: rest =>
    if c = 'e' ∨ c = 'E' then
      let (negative, ds) := splitSign rest
      (readDigits Char.isDigit ds).map fun r =>
        let n : Int := Nat.ofDigitChars 10 r.1 0
        (if negative then -n else n, r.2)
    else none

/-- The number of a sign, digits and a power of ten; a positive one has to be finite. -/
def floating? (negative : Bool) (ds : List Char) (e : Int) : Option Data :=
  if !negative && !isFiniteDecimal ds e then none
  else some (.floating (if negative then -floatOfDecimal ds e else floatOfDecimal ds e))

/-- A number with a fraction, with an exponent, or with both. -/
def readFloating (cs : List Char) : Option (Data × List Char) :=
  let (negative, unsigned) := splitSign cs
  (readWhole unsigned).bind fun w =>
    match readFraction? w.2 with
    | some f =>
      let e := (readExponent? f.2).getD (0, f.2)
      (floating? negative (w.1 ++ f.1) (e.1 - f.1.length)).map fun d => (d, e.2)
    | none =>
      (readExponent? w.2).bind fun e => (floating? negative w.1 e.1).map fun d => (d, e.2)

/-- The text after a word in front of it. -/
def after? (word : String) (cs : List Char) : Option (List Char) :=
  if word.toList.isPrefixOf cs then some (cs.drop word.length) else none

/-- An infinity or no number, with a sign or without. -/
def readSpecial (cs : List Char) : Option (Data × List Char) :=
  let (negative, unsigned) := splitSign cs
  match after? "inf" unsigned with
  | some rest => some (.floating (if negative then -1.0 / 0.0 else 1.0 / 0.0), rest)
  | none => (after? "nan" unsigned).map fun rest => (.floating (0.0 / 0.0), rest)

/-! Dates and times. -/

/-- A number of exactly `width` digits, from `lo` to `hi`. -/
def readNumber (width lo hi : Nat) (cs : List Char) : Option (Nat × List Char) :=
  let ds := cs.take width
  let n := Nat.ofDigitChars 10 ds 0
  if ds.length = width ∧ ds.all Char.isDigit ∧ lo ≤ n ∧ n ≤ hi then some (n, cs.drop width) else none

def isLeapYear (y : Nat) : Bool := y % 4 == 0 && (y % 100 != 0 || y % 400 == 0)

def daysIn (year month : Nat) : Nat :=
  if month = 2 then if isLeapYear year then 29 else 28
  else if month = 4 ∨ month = 6 ∨ month = 9 ∨ month = 11 then 30
  else 31

/-- The text after a year, a month and a day. -/
def afterDate? (cs : List Char) : Option (List Char) :=
  (readNumber 4 0 9999 cs).bind fun year => (after? "-" year.2).bind fun rest =>
    (readNumber 2 1 12 rest).bind fun month => (after? "-" month.2).bind fun rest =>
      (readNumber 2 1 (daysIn year.1 month.1) rest).map (·.2)

/-- The text after an hour, a minute, a second and perhaps a fraction of it. -/
def afterTime? (cs : List Char) : Option (List Char) :=
  (readNumber 2 0 23 cs).bind fun hour => (after? ":" hour.2).bind fun rest =>
    (readNumber 2 0 59 rest).bind fun minute => (after? ":" minute.2).bind fun rest =>
      (readNumber 2 0 60 rest).map fun second =>
        match second.2 with
        | '.' :: d :: more => if d.isDigit then more.dropWhile Char.isDigit else '.' :: d :: more
        | rest => rest

/-- The text after the offset of a time, if there is one. -/
def afterOffset (cs : List Char) : List Char :=
  match cs with
  | 'Z' :: rest => rest
  | 'z' :: rest => rest
  | c :: rest =>
    if c = '+' ∨ c = '-' then
      (((readNumber 2 0 23 rest).bind fun hour => (after? ":" hour.2).bind fun more =>
        (readNumber 2 0 59 more).map (·.2))).getD cs
    else cs
  | [] => []

/-- The text after a date, a time, or a date and a time. -/
def afterMoment? (cs : List Char) : Option (List Char) :=
  match afterDate? cs with
  | some (c :: rest) =>
    if c = 'T' ∨ c = 't' ∨ c = ' ' then
      some (((afterTime? rest).map afterOffset).getD (c :: rest))
    else some (c :: rest)
  | some [] => some []
  | none => afterTime? cs

/-- A date is an object with its text. -/
def readMoment (cs : List Char) : Option (Data × List Char) :=
  (afterMoment? cs).map fun rest =>
    (.record [("date", .text (cs.take (cs.length - rest.length)))], rest)

/-- A value that is neither a text nor holds others. -/
def readScalar (cs : List Char) : Option (Data × List Char) :=
  match after? "true" cs, after? "false" cs with
  | some rest, _ => some (.bool true, rest)
  | _, some rest => some (.bool false, rest)
  | none, none =>
    (readMoment cs).or ((readFloating cs).or ((readSpecial cs).or (readInteger cs)))

end CodeFolding.Toml
