import CodeFolding.Region
import CodeFolding.Text.Blank
import CodeFolding.Text.Utf8
import CodeFolding.Text.Word

/-!
Declarations at the start of a line.

A declaration is a visibility, qualifiers, a foreign interface and more qualifiers, each of them
optional and followed by blanks, and then the keyword, which ends its word.
-/

set_option autoImplicit false

namespace CodeFolding.Declaration

/-- The text after a word in front of it. -/
def after? (word : List Char) (cs : List Char) : Option (List Char) :=
  if word.isPrefixOf cs then some (cs.drop word.length) else none

/-- The text after one blank or more. -/
def afterBlanks? : List Char → Option (List Char)
  | [] => none
  | c :: rest => if isBlank c then some (trimStart rest) else none

/-- The text after the first `stop`. -/
def afterStop? (stop : Char) : List Char → Option (List Char)
  | [] => none
  | c :: rest => if c = stop then some rest else afterStop? stop rest

/-- The text after a `pub` and its blanks; between the two may stand a scope in parentheses. -/
def visibility? (cs : List Char) : Option (List Char) :=
  (after? "pub".toList cs).bind fun rest =>
    match rest with
    | '(' :: scope => (afterStop? ')' scope).bind afterBlanks?
    | _ => afterBlanks? rest

/-- The text after one of the words and its blanks. -/
def qualifier? (words : List String) (cs : List Char) : Option (List Char) :=
  words.findSome? fun w => (after? w.toList cs).bind afterBlanks?

/-- The text after any number of qualifiers; `fuel` bounds their number. -/
def afterQualifiers (words : List String) : Nat → List Char → List Char
  | 0, cs => cs
  | fuel + 1, cs =>
    match qualifier? words cs with
    | some rest => afterQualifiers words fuel rest
    | none => cs

def skipQualifiers (words : List String) (cs : List Char) : List Char :=
  afterQualifiers words cs.length cs

/-- The text after an interface's name in quotes and its blanks. -/
def interfaceName? : List Char → Option (List Char)
  | '"' :: rest => (afterStop? '"' rest).bind afterBlanks?
  | _ => none

/-- The text after an `extern` and its blanks, and the name of the interface if there is one. -/
def interface? (cs : List Char) : Option (List Char) :=
  ((after? "extern".toList cs).bind afterBlanks?).map fun rest => (interfaceName? rest).getD rest

/-- The text from where the keyword has to be. -/
def fromKeyword (line : List Char) : List Char :=
  let trimmed := trimStart line
  let unscoped := (visibility? trimmed).getD trimmed
  let qualified := skipQualifiers ["default", "const", "async", "unsafe"] unscoped
  let native := (interface? qualified).getD qualified
  skipQualifiers ["async", "unsafe"] native

/-- The declaration whose keyword starts a text, as a whole word. -/
def keyword? (cs : List Char) : Option Kind :=
  Kind.declarations.find? fun k =>
    match after? k.name.toList cs with
    | some rest => endsWord rest
    | none => false

/-- The declaration that a line starts with, and how many UTF-8 bytes stand before its keyword. -/
def find? (line : List Char) : Option (Nat × Kind) :=
  (keyword? (fromKeyword line)).map fun k =>
    (Utf8.byteLength line - Utf8.byteLength (fromKeyword line), k)

end CodeFolding.Declaration
