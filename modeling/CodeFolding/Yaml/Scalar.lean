import CodeFolding.Number.Range
import CodeFolding.Text.Hex

/-!
Texts as scalars of YAML: which style a text is written in, and its characters in that style.

A text that would read as something else than a text is quoted, and so is one whose characters mean
something where they stand. A text of several lines is a block.
-/

set_option autoImplicit false

namespace CodeFolding.Yaml

/-! What a plain scalar would read as. -/

def nulls : List String := ["null", "Null", "NULL", "~"]

def bools : List String := ["true", "True", "TRUE", "false", "False", "FALSE"]

def nonFinite : List String :=
  [".inf", ".Inf", ".INF", "+.inf", "+.Inf", "+.INF", "-.inf", "-.Inf", "-.INF", ".nan", ".NaN", ".NAN"]

def isOneOf (words : List String) (cs : List Char) : Bool := words.any fun w => w.toList == cs

/-- Digits that start with a zero and go on: no number. -/
def isPaddedDigits (cs : List Char) : Bool :=
  match (splitSign cs).2 with
  | '0' :: c :: rest => (c :: rest).all Char.isDigit
  | _ => false

/-- The value of a digit in a base up to sixteen. -/
def digitIn? (base : Nat) (c : Char) : Option Nat :=
  (hexValue? c).bind fun d => if d < base then some d else none

/-- The value of digits in a base; at least one. -/
def valueIn? (base : Nat) (cs : List Char) : Option Nat :=
  if cs = [] then none
  else (cs.mapM (digitIn? base)).map fun ds => ds.foldl (fun n d => n * base + d) 0

/-- A whole number in some base after its mark, of at most 128 bits. -/
def isMarkedWhole (negative : Bool) : List Char → Bool
  | '0' :: mark :: rest =>
    let base := if mark = 'x' then 16 else if mark = 'o' then 8 else if mark = 'b' then 2 else 0
    match if base = 0 then none else valueIn? base rest with
    | some n => if negative then n ≤ 1 <<< 127 else n < 1 <<< 128
    | none => false
  | _ => false

/-- The digits in front, and the text after them. -/
def spanDigits (cs : List Char) : List Char × List Char :=
  (cs.takeWhile Char.isDigit, cs.dropWhile Char.isDigit)

/-- The exponent that a whole text is; none if the text is no exponent. No text is exponent zero. -/
def exponentOf? : List Char → Option Int
  | [] => some 0
  | c :: rest =>
    if c = 'e' ∨ c = 'E' then
      let (negative, ds) := splitSign rest
      if ds ≠ [] ∧ ds.all Char.isDigit then
        let e : Int := Nat.ofDigitChars 10 ds 0
        some (if negative then -e else e)
      else none
    else none

/-- A decimal number without sign that is not too great to be floating. -/
def isDecimal (cs : List Char) : Bool :=
  let (whole, rest) := spanDigits cs
  let (fraction, rest) := match rest with
    | '.' :: more => spanDigits more
    | _ => ([], rest)
  if whole = [] ∧ fraction = [] then false
  else
    match exponentOf? rest with
    | some e => isFiniteDecimal (whole ++ fraction) (e - fraction.length)
    | none => false

/-- A number, with a sign or without. -/
def isNumber (cs : List Char) : Bool :=
  isOneOf nonFinite cs || isDecimal (splitSign cs).2 ||
    (match cs with
      | '-' :: rest => isMarkedWhole true rest
      | '+' :: rest => isMarkedWhole false rest
      | _ => isMarkedWhole false cs)

/-- Whether a plain scalar would not read as a text, or is easily taken for a number. -/
def isAmbiguous (cs : List Char) : Bool :=
  cs = [] || isOneOf nulls cs || isOneOf bools cs || isPaddedDigits cs || isNumber cs

/-! What the characters of a text allow. -/

/-- A character that ends a line. -/
def isBreak (c : Char) : Bool :=
  c == '\n' || c == '\r' || c == '\u0085' || c == '\u2028' || c == '\u2029'

def isPrintable (c : Char) : Bool :=
  c == '\n' || (0x20 ≤ c.toNat && c.toNat ≤ 0x7E) ||
    (0xA0 ≤ c.toNat && c.toNat != 0xFEFF && c.toNat != 0xFFFE && c.toNat != 0xFFFF)

/-- A blank, a line end or the end of the text comes next. -/
def meetsGap : List Char → Bool
  | [] => true
  | c :: _ => c == ' ' || c == '\t' || c == '\x00' || isBreak c

/-- A character that means something at the start of a scalar. -/
def isLeadingIndicator (c : Char) (rest : List Char) : Bool :=
  "#,[]\x7b\x7d&*!|>'\"%@\u0060".toList.contains c || ((c == '?' || c == ':' || c == '-') && meetsGap rest)

/-- Whether a colon before a gap, or a hash sign behind one, stands behind the first character. -/
def hasInnerIndicator (before : Char) : List Char → Bool
  | [] => false
  | c :: rest =>
    (c == ':' && meetsGap rest) || (c == '#' && meetsGap [before]) || hasInnerIndicator c rest

def hasIndicator : List Char → Bool
  | [] => false
  | c :: rest =>
    "---".toList.isPrefixOf (c :: rest) || "...".toList.isPrefixOf (c :: rest) ||
      isLeadingIndicator c rest || hasInnerIndicator c rest

/-- Whether a character of one sort stands right before one of another. -/
def hasPair (first second : Char → Bool) : List Char → Bool
  | a :: b :: rest => (first a && second b) || hasPair first second (b :: rest)
  | _ => false

def isSpace (c : Char) : Bool := c == ' '

def startsWith (p : Char → Bool) (cs : List Char) : Bool := (cs.head?.map p).getD false

def endsWith (p : Char → Bool) (cs : List Char) : Bool := (cs.getLast?.map p).getD false

/-- Characters that only an escape can write, or blanks before a line end. -/
def needsEscape (cs : List Char) : Bool :=
  cs.any (fun c => !isPrintable c) || hasPair isSpace isBreak cs

def allowsPlain (cs : List Char) : Bool :=
  !(hasIndicator cs || needsEscape cs || cs.any isBreak || startsWith isSpace cs ||
    endsWith isSpace cs)

def allowsQuoted (cs : List Char) : Bool := !(needsEscape cs || hasPair isBreak isSpace cs)

def allowsBlock (cs : List Char) : Bool := !(needsEscape cs || endsWith isSpace cs)

/-! The styles. -/

inductive ScalarStyle where
  | plain
  | quoted
  | escaped
  | block
  deriving DecidableEq, Repr

def ScalarStyle.ofText (cs : List Char) : ScalarStyle :=
  if cs.contains '\n' then if allowsBlock cs then .block else .escaped
  else if !isAmbiguous cs && allowsPlain cs then .plain
  else if allowsQuoted cs then .quoted
  else .escaped

def indentTo (n : Nat) : List Char := List.replicate n ' '

/-- The characters between single quotes, where a quote is written twice. A line end is written as
it is, and the line after it is indented. -/
def writeQuotedFrom (indent : Nat) (afterBreak : Bool) : List Char → List Char
  | [] => if afterBreak then indentTo indent else []
  | c :: rest =>
    if isBreak c then c :: writeQuotedFrom indent true rest
    else
      (if afterBreak then indentTo indent else []) ++ (if c == '\'' then ['\'', '\''] else [c]) ++
        writeQuotedFrom indent false rest

def upperHex (width n : Nat) : List Char :=
  let ds := (Nat.toDigits 16 n).map Char.toUpper
  List.replicate (width - ds.length) '0' ++ ds

/-- The letter of an escape that has one. -/
def escapeLetter? (c : Char) : Option Char :=
  [('\x00', '0'), ('\x07', 'a'), ('\x08', 'b'), ('\t', 't'), ('\n', 'n'), ('\x0b', 'v'),
    ('\x0c', 'f'), ('\r', 'r'), ('\x1b', 'e'), ('"', '"'), ('\\', '\\'), ('\u0085', 'N'),
    ('\u00A0', '_'), ('\u2028', 'L'), ('\u2029', 'P')].lookup c

/-- A character between double quotes. -/
def writeEscaped (c : Char) : List Char :=
  if isPrintable c && !isBreak c && c != '"' && c != '\\' then [c]
  else
    match escapeLetter? c with
    | some l => ['\\', l]
    | none =>
      if c.toNat ≤ 0xFF then '\\' :: 'x' :: upperHex 2 c.toNat
      else if c.toNat ≤ 0xFFFF then '\\' :: 'u' :: upperHex 4 c.toNat
      else '\\' :: 'U' :: upperHex 8 c.toNat

/-- The lines of a block; the first character of each that is not empty is indented. -/
def writeBlockFrom (indent : Nat) (afterBreak : Bool) : List Char → List Char
  | [] => []
  | c :: rest =>
    if isBreak c then c :: writeBlockFrom indent true rest
    else (if afterBreak then indentTo indent else []) ++ c :: writeBlockFrom indent false rest

/-- What the head of a block says: the indentation if the text starts with a gap, and what becomes
of the line ends at its end. -/
def blockHints (cs : List Char) : List Char :=
  (if startsWith isSpace cs || startsWith isBreak cs then ['2'] else []) ++
    (if !endsWith isBreak cs then ['-']
      else if cs.dropLast = [] || endsWith isBreak cs.dropLast then ['+'] else [])

/-- A scalar, and the line end after it if it does not bring one. -/
def writeScalar (indent : Nat) (cs : List Char) : List Char :=
  match ScalarStyle.ofText cs with
  | .plain => cs ++ ['\n']
  | .quoted => '\'' :: writeQuotedFrom indent false cs ++ ['\'', '\n']
  | .escaped => '"' :: cs.flatMap writeEscaped ++ ['"', '\n']
  | .block =>
    '|' :: blockHints cs ++ '\n' :: writeBlockFrom indent true cs ++
      (if endsWith isBreak cs then [] else ['\n'])

end CodeFolding.Yaml
