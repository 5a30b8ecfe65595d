import CodeFolding.Text.Hex

/-!
Texts, blanks and comments of TOML.

Each reader gives what it has read and the text after it.
-/

set_option autoImplicit false

namespace CodeFolding.Toml

def isGap (c : Char) : Bool := c == ' ' || c == '\t'

def skipGap (cs : List Char) : List Char := cs.dropWhile isGap

/-- A character that a comment or a text on one line may hold as it is. -/
def isInline (c : Char) : Bool := c == '\t' || (0x20 ≤ c.toNat && c.toNat != 0x7F)

/-- The text after a line end. -/
def newline? : List Char → Option (List Char)
  | '\n' :: rest => some rest
  | '\r' :: '\n' :: rest => some rest
  | _ => none

/-- The text after a comment, up to its line end. -/
def skipComment : List Char → List Char
  | '#' :: rest => rest.dropWhile isInline
  | cs => cs

/-- The text after the end of a statement: a gap, a comment, and a line end unless the text ends. -/
def endLine? (cs : List Char) : Option (List Char) :=
  match skipComment (skipGap cs) with
  | [] => some []
  | rest => newline? rest

/-- The text after gaps, comments and line ends; `fuel` bounds their number. -/
def skipLines : Nat → List Char → Option (List Char)
  | 0, cs => some cs
  | fuel + 1, cs =>
    match skipGap cs with
    | '#' :: rest => (newline? (skipComment ('#' :: rest))).bind (skipLines fuel)
    | '\n' :: rest => skipLines fuel rest
    | '\r' :: rest => (newline? ('\r' :: rest)).bind (skipLines fuel)
    | rest => some rest

def skipAll (cs : List Char) : Option (List Char) := skipLines (cs.length + 1) cs

/-- The character with a code point of some hexadecimal digits. -/
def unicode? (ds : List Char) : Option Char :=
  (ds.mapM hexValue?).bind fun values =>
    let n := values.foldl (fun n d => n * 16 + d) 0
    if n < 0xD800 ∨ (0xDFFF < n ∧ n < 0x110000) then some (Char.ofNat n) else none

/-- The character of an escape with a single letter. -/
def escaped? (c : Char) : Option Char :=
  match c with
  | 'b' => some '\x08'
  | 't' => some '\t'
  | 'n' => some '\n'
  | 'f' => some '\x0c'
  | 'r' => some '\r'
  | '"' => some '"'
  | '\\' => some '\\'
  | _ => none

/-- The character of an escape behind its backslash. -/
def readEscape : List Char → Option (Char × List Char)
  | [] => none
  | c :: rest =>
    if c = 'u' ∨ c = 'U' then
      let width := if c = 'u' then 4 else 8
      if rest.length < width then none
      else (unicode? (rest.take width)).map fun u => (u, rest.drop width)
    else (escaped? c).map fun e => (e, rest)

/-- The text after a backslash at the end of a line: the line end and all gaps and line ends that
follow. -/
def afterFold? (cs : List Char) : Option (List Char) :=
  (newline? (skipGap cs)).map fun rest => go rest.length rest
where
  go : Nat → List Char → List Char
    | 0, cs => cs
    | fuel + 1, cs =>
      match newline? (skipGap cs) with
      | some rest => go fuel rest
      | none => skipGap cs

/-- A text in double quotes, behind the first; `fuel` bounds its length. -/
def readBasic : Nat → List Char → Option (List Char × List Char)
  | 0, _ => none
  | _, [] => none
  | fuel + 1, c :: rest =>
    if c = '"' then some ([], rest)
    else if c = '\\' then
      (readEscape rest).bind fun e => (readBasic fuel e.2).map fun r => (e.1 :: r.1, r.2)
    else if isInline c then (readBasic fuel rest).map fun r => (c :: r.1, r.2)
    else none

/-- A text in single quotes, behind the first. -/
def readLiteral : List Char → Option (List Char × List Char)
  | [] => none
  | c :: rest =>
    if c = '\'' then some ([], rest)
    else if isInline c then (readLiteral rest).map fun r => (c :: r.1, r.2)
    else none

/-- How many of a character stand in front. -/
def countFront (q : Char) (cs : List Char) : Nat := (cs.takeWhile (· == q)).length

/-- What a run of quotes inside a text of many lines is: up to two belong to the text, three end it
and up to two more stand before its end. -/
def quoteRun? (q : Char) (n : Nat) : Option (List Char × Bool) :=
  if n < 3 then some (List.replicate n q, false)
  else if n ≤ 5 then some (List.replicate (n - 3) q, true)
  else none

/-- A text between triple quotes, behind its first line end. `escapes` says whether a backslash
escapes; `fuel` bounds the length. -/
def readMany (q : Char) (escapes : Bool) : Nat → List Char → Option (List Char × List Char)
  | 0, _ => none
  | _, [] => none
  | fuel + 1, c :: rest =>
    if c = q then
      let n := countFront q (c :: rest)
      (quoteRun? q n).bind fun run =>
        let after := (c :: rest).drop n
        if run.2 then some (run.1, after)
        else (readMany q escapes fuel after).map fun r => (run.1 ++ r.1, r.2)
    else if c = '\\' ∧ escapes then
      match afterFold? rest with
      | some after => readMany q escapes fuel after
      | none =>
        (readEscape rest).bind fun e => (readMany q escapes fuel e.2).map fun r => (e.1 :: r.1, r.2)
    else
      match newline? (c :: rest) with
      | some after => (readMany q escapes fuel after).map fun r => ('\n' :: r.1, r.2)
      | none =>
        if isInline c then (readMany q escapes fuel rest).map fun r => (c :: r.1, r.2) else none

def dropNewline (cs : List Char) : List Char := (newline? cs).getD cs

/-- A text in quotes of any sort. -/
def readText (cs : List Char) : Option (List Char × List Char) :=
  match cs with
  | '"' :: '"' :: '"' :: rest => readMany '"' true (cs.length + 1) (dropNewline rest)
  | '\'' :: '\'' :: '\'' :: rest => readMany '\'' false (cs.length + 1) (dropNewline rest)
  | '"' :: rest => readBasic (cs.length + 1) rest
  | '\'' :: rest => readLiteral rest
  | _ => none

/-- A character of a key without quotes. -/
def isBare (c : Char) : Bool := c.isAlphanum || c == '_' || c == '-'

/-- One part of a key. A key is a text on one line. -/
def readKeyPart (cs : List Char) : Option (List Char × List Char) :=
  match cs with
  | '"' :: rest => readBasic (cs.length + 1) rest
  | '\'' :: rest => readLiteral rest
  | _ =>
    let bare := cs.takeWhile isBare
    if bare = [] then none else some (bare, cs.dropWhile isBare)

/-- The parts of a key, with dots between them and gaps around them; `fuel` bounds their number. -/
def readKeyParts : Nat → List Char → Option (List (List Char) × List Char)
  | 0, _ => none
  | fuel + 1, cs =>
    (readKeyPart (skipGap cs)).bind fun part =>
      match skipGap part.2 with
      | '.' :: rest => (readKeyParts fuel rest).map fun r => (part.1 :: r.1, r.2)
      | rest => some ([part.1], rest)

/-- Keys and values lie less than this deep. -/
def depthLimit : Nat := 80

def readKey (cs : List Char) : Option (List (List Char) × List Char) :=
  readKeyParts (depthLimit - 1) cs

end CodeFolding.Toml
