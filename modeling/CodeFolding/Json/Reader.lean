import CodeFolding.Json.Number
import CodeFolding.Text.Decimal
import CodeFolding.Text.Hex

/-!
Reading JSON texts.

Each reader gives what it has read and the text after it. A value is read with fuel, one unit for
each step into it; a text never needs more than its length.
-/

set_option autoImplicit false

namespace CodeFolding.Json

def isSpace (c : Char) : Bool := c == ' ' || c == '\t' || c == '\n' || c == '\r'

def skipSpace (cs : List Char) : List Char := cs.dropWhile isSpace

/-- What a text in quotes holds: characters, and code units written as four hexadecimal digits. -/
inductive Piece where
  | char (c : Char)
  | unit (n : Nat)
  deriving DecidableEq, Repr

def hexUnit? (a b c d : Char) : Option Nat :=
  (hexValue? a).bind fun w => (hexValue? b).bind fun x => (hexValue? c).bind fun y =>
    (hexValue? d).map fun z => ((w * 16 + x) * 16 + y) * 16 + z

/-- The character of an escape with a single letter. -/
def escaped? (c : Char) : Option Char :=
  match c with
  | '"' => some '"'
  | '\\' => some '\\'
  | '/' => some '/'
  | 'b' => some '\x08'
  | 'f' => some '\x0c'
  | 'n' => some '\n'
  | 'r' => some '\r'
  | 't' => some '\t'
  | _ => none

/-- The pieces up to the closing quote. A control character has to be escaped. -/
def readPieces : List Char → Option (List Piece × List Char)
  | [] => none
  | '"' :: rest => some ([], rest)
  | '\\' :: 'u' :: a :: b :: c :: d :: rest =>
    (hexUnit? a b c d).bind fun n => (readPieces rest).map fun r => (.unit n :: r.1, r.2)
  | '\\' :: c :: rest =>
    (escaped? c).bind fun e => (readPieces rest).map fun r => (.char e :: r.1, r.2)
  | c :: rest =>
    if c.toNat < 0x20 ∨ c = '\\' then none
    else (readPieces rest).map fun r => (.char c :: r.1, r.2)

def isHighUnit (n : Nat) : Bool := 0xD800 ≤ n && n < 0xDC00

def isLowUnit (n : Nat) : Bool := 0xDC00 ≤ n && n < 0xE000

/-- The text of the pieces; none if half of a surrogate pair stands alone. -/
def joinPieces : List Piece → Option (List Char)
  | [] => some []
  | .char c :: rest => (joinPieces rest).map (c :: ·)
  | .unit n :: rest =>
    if isHighUnit n then
      match rest with
      | .unit m :: more =>
        if isLowUnit m then
          (joinPieces more).map (Char.ofNat (0x10000 + (n - 0xD800) * 0x400 + (m - 0xDC00)) :: ·)
        else none
      | _ => none
    else if isLowUnit n then none
    else (joinPieces rest).map (Char.ofNat n :: ·)

/-- The text behind an opening quote; the text itself is none if it holds no character there. -/
def readQuoted (cs : List Char) : Option (Option (List Char) × List Char) :=
  (readPieces cs).map fun r => (joinPieces r.1, r.2)

/-- Digits, at least one. -/
def readDigits (cs : List Char) : Option (List Char × List Char) :=
  let ds := cs.takeWhile Char.isDigit
  if ds = [] then none else some (ds, cs.dropWhile Char.isDigit)

/-- The digits before the point: a zero alone, or digits without a zero in front. -/
def readWhole (cs : List Char) : Option (List Char × List Char) :=
  (readDigits cs).bind fun r => if r.1.head? = some '0' ∧ 1 < r.1.length then none else some r

/-- The point and the digits behind it, if there is a point. -/
def readFraction : List Char → Option (Option (List Char) × List Char)
  | '.' :: rest => (readDigits rest).map fun r => (some r.1, r.2)
  | cs => some (none, cs)

/-- The exponent, if there is one. -/
def readExponent : List Char → Option (Option (Bool × List Char) × List Char)
  | [] => some (none, [])
  | c :: rest =>
    if c = 'e' ∨ c = 'E' then
      (readDigits (splitSign rest).2).map fun r => (some ((splitSign rest).1, r.1), r.2)
    else some (none, c :: rest)

def readUnsigned (negative : Bool) (cs : List Char) : Option (Numeral × List Char) :=
  (readWhole cs).bind fun w => (readFraction w.2).bind fun f => (readExponent f.2).map fun e =>
    (⟨negative, w.1, f.1, e.1⟩, e.2)

def readNumeral : List Char → Option (Numeral × List Char)
  | '-' :: rest => readUnsigned true rest
  | cs => readUnsigned false cs

/-- A text that holds half of a surrogate pair is void. -/
def quotedData : Option (List Char) → Data
  | some cs => .text cs
  | none => .void

/-- An object of fields; it is void if one of the names is. -/
def objectData (fields : List (Option (List Char) × Data)) : Data :=
  match fields.mapM fun f => f.1.map fun name => (name, f.2) with
  | some named => .object named
  | none => .void

/-- The text after a word in front of it. -/
def readWord (word : String) (v : Data) (cs : List Char) : Option (Data × List Char) :=
  if word.toList.isPrefixOf cs then some (v, cs.drop word.length) else none

mutual

/-- A value at the start of a text. -/
def readValue : Nat → List Char → Option (Data × List Char)
  | 0, _ => none
  | fuel + 1, cs =>
    match skipSpace cs with
    | [] => none
    | c :: rest =>
      if c = '"' then (readQuoted rest).map fun r => (quotedData r.1, r.2)
      else if c = '[' then
        match skipSpace rest with
        | ']' :: after => some (.list [], after)
        | _ => (readItems fuel rest).map fun r => (.list r.1, r.2)
      else if c = '\x7b' then
        match skipSpace rest with
        | '\x7d' :: after => some (.object [], after)
        | _ => (readFields fuel rest).map fun r => (objectData r.1, r.2)
      else if c = 'n' then readWord "null" .null (c :: rest)
      else if c = 't' then readWord "true" (.bool true) (c :: rest)
      else if c = 'f' then readWord "false" (.bool false) (c :: rest)
      else (readNumeral (c :: rest)).map fun r => (r.1.data, r.2)

/-- The items of a list that is not empty, up to its bracket. -/
def readItems : Nat → List Char → Option (List Data × List Char)
  | 0, _ => none
  | fuel + 1, cs =>
    (readValue fuel cs).bind fun item =>
      match skipSpace item.2 with
      | ',' :: more => (readItems fuel more).map fun r => (item.1 :: r.1, r.2)
      | ']' :: after => some ([item.1], after)
      | _ => none

/-- The fields of an object that is not empty, up to its brace. -/
def readFields : Nat → List Char → Option (List (Option (List Char) × Data) × List Char)
  | 0, _ => none
  | fuel + 1, cs =>
    match skipSpace cs with
    | '"' :: quoted =>
      (readQuoted quoted).bind fun name =>
        match skipSpace name.2 with
        | ':' :: text =>
          (readValue fuel text).bind fun value =>
            match skipSpace value.2 with
            | ',' :: more =>
              (readFields fuel more).map fun r => ((name.1, value.1) :: r.1, r.2)
            | '\x7d' :: after => some ([(name.1, value.1)], after)
            | _ => none
        | _ => none
    | _ => none

end

/-- The value of a text that holds one value and nothing else. -/
def read? (cs : List Char) : Option Data :=
  (readValue (cs.length + 1) cs).bind fun r => if skipSpace r.2 = [] then some r.1 else none

end CodeFolding.Json
