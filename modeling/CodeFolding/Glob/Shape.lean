import CodeFolding.Glob

/-!
Shapes of glob patterns and the paths that match them.

A pattern of a simple shape is compared with one part of a path. Where this part is the last name or
its extension, a path that ends in the directory above does not match, for it has no last name.
-/

set_option autoImplicit false

namespace CodeFolding.Glob

/-- What of a path a pattern is compared with. -/
inductive Shape where
  /-- The last name, in any directory. -/
  | name
  /-- All of it, as it stands. -/
  | whole
  /-- The extension of the last name, in any directory. -/
  | extension
  | start
  | ending
  /-- The extension of the last name, and then all of it. -/
  | extended
  /-- All of it. -/
  | general
  deriving DecidableEq, Repr

/-- Whether a path needs a last name to match. -/
def Shape.readsName : Shape → Bool
  | .name | .extension | .extended => true
  | _ => false

/-- The characters of tokens that stand for themselves. -/
def chars? : List GlobToken → Option (List Char)
  | [] => some []
  | .char c :: rest => (chars? rest).map (c :: ·)
  | _ :: _ => none

/-- Whether tokens stand for themselves and the text of them is as wanted. -/
def charsAre (wanted : List Char → Bool) (tokens : List GlobToken) : Bool :=
  match chars? tokens with
  | some cs => wanted cs
  | none => false

/-- `**` and a name. -/
def isName : List GlobToken → Bool
  | .anyDirs :: rest => charsAre (fun cs => !cs.isEmpty && !cs.contains '/') rest
  | _ => false

/-- A text without wild cards. -/
def isWhole (tokens : List GlobToken) : Bool := charsAre (!·.isEmpty) tokens

/-- What may follow the dot of an extension. -/
def endsExtension (tokens : List GlobToken) : Bool :=
  charsAre (fun cs => !cs.contains '.' && !cs.contains '/') tokens

/-- `*` and an extension, where the wild card stands for names in any directory. -/
def isExtension (crossing : Bool) : List GlobToken → Bool
  | .anyDirs :: .anyMany :: .char '.' :: rest => endsExtension rest
  | .anyMany :: .char '.' :: rest => crossing && endsExtension rest
  | _ => false

/-- A text and `*`, or a directory and all below it. -/
def isStart (crossing : Bool) (tokens : List GlobToken) : Bool :=
  match tokens.getLast? with
  | some .anyMany => crossing && isWhole tokens.dropLast
  | some .anyBelow => (chars? tokens.dropLast).isSome
  | _ => false

/-- `*` and a text, or names in any directory. -/
def isEnding (crossing : Bool) : List GlobToken → Bool
  | .anyDirs :: .anyMany :: rest => crossing && charsAre (fun cs => !cs.isEmpty && cs != ['/']) rest
  | .anyMany :: rest => crossing && charsAre (fun cs => !cs.isEmpty && cs != ['/']) rest
  | .anyDirs :: rest => isWhole rest
  | _ => false

/-- Whether a token stands for a character inside an extension. -/
def inExtension : GlobToken → Bool
  | .char c => c != '.' && c != '/'
  | _ => false

/-- Tokens that end in an extension. -/
def isExtended (tokens : List GlobToken) : Bool :=
  match tokens.reverse.dropWhile inExtension with
  | .char '.' :: _ => true
  | _ => false

def shape (g : Glob) : Shape :=
  if isName g.tokens then .name
  else if isWhole g.tokens then .whole
  else if isExtension g.crossing g.tokens then .extension
  else if isStart g.crossing g.tokens then .start
  else if isEnding g.crossing g.tokens then .ending
  else if isExtended g.tokens then .extended
  else .general

/-- Whether the last part of a path is the directory above. -/
def endsAbove (path : List UInt8) : Bool :=
  (Path.splitSlashes path).getLast? == some [Path.dot, Path.dot]

/-- Whether the pattern matches a path. -/
def accepts (g : Glob) (path : List UInt8) : Bool :=
  !(g.shape.readsName && endsAbove path) && g.spells path

end CodeFolding.Glob
