import CodeFolding.Disk
import CodeFolding.Glob.Reader
import CodeFolding.Glob.Shape
import CodeFolding.Text.Blank
import CodeFolding.Text.Decimal

/-!
Rules of an ignore file.

Each line is a pattern of paths below the root. A `!` in front takes paths back that an earlier rule
leaves out, a slash at the end selects directories only, and a slash elsewhere ties the pattern to
the root. Of the rules that match a path the last one decides.
-/

set_option autoImplicit false

namespace CodeFolding

structure IgnoreRule where
  glob : Glob
  takesBack : Bool
  dirsOnly : Bool

namespace IgnoreRule

/-- The text of a line without blanks at its end; an escaped blank there is kept. -/
def trimLine (line : List Char) : List Char :=
  if ['\\', ' '].isSuffixOf line then line else trimEnd line

/-- What a line says apart from its pattern. -/
structure Marks where
  takesBack : Bool
  atRoot : Bool
  dirsOnly : Bool
  deriving DecidableEq, Repr

/-- Takes the marks at the start of a line off it. -/
def splitStart (line : List Char) : Marks × List Char :=
  match line with
  | '\\' :: '!' :: rest => (⟨false, false, false⟩, '!' :: rest)
  | '\\' :: '#' :: rest => (⟨false, false, false⟩, '#' :: rest)
  | '!' :: '/' :: rest => (⟨true, true, false⟩, rest)
  | '!' :: rest => (⟨true, false, false⟩, rest)
  | '/' :: rest => (⟨false, true, false⟩, rest)
  | _ => (⟨false, false, false⟩, line)

/-- Takes a slash off the end of a line, and with it the backslash that escapes it. -/
def splitEnd (line : List Char) : Bool × List Char :=
  if line.getLast? = some '/' then
    let rest := line.dropLast
    (true, if rest.getLast? = some '\\' then rest.dropLast else rest)
  else (false, line)

/-- The pattern of a line. Without a slash it matches names at any depth, and a `**` behind a slash
at its end matches only what is inside. -/
def patternText (atRoot : Bool) (line : List Char) : List Char :=
  let free := !atRoot && !line.contains '/' && line != "**".toList
  let whole := if free then "**/".toList ++ line else line
  if "/**".toList.isSuffixOf whole then whole ++ "/*".toList else whole

/-- In an ignore file wild cards stop at slashes, and a bracket may stay open. -/
def dialect : Glob.Dialect := ⟨false, true⟩

/-- The rule of a line that holds one. -/
def read (line : List Char) : Except GlobFault IgnoreRule :=
  let (marks, rest) := splitStart line
  let (dirsOnly, body) := splitEnd rest
  (Glob.read dialect (patternText marks.atRoot body)).map fun g => ⟨g, marks.takesBack, dirsOnly⟩

/-- A comment or an empty line. -/
def isEmptyLine (line : List Char) : Bool := line.head? == some '#' || (trimLine line).isEmpty

end IgnoreRule

/-- Why a line of an ignore file cannot be read. -/
inductive IgnoreLineFault where
  | pattern (line : List Char) (fault : GlobFault)
  | unreadable (fault : FileFault)

def IgnoreLineFault.message : IgnoreLineFault → List Char
  | .pattern line e => Glob.faultText line e
  | .unreadable e => e.message.toList

/-- An ignore file: the root below which its patterns lie, and its rules. -/
structure IgnoreFile where
  root : Path
  rules : List IgnoreRule

namespace IgnoreFile

/-- The rules of a file and the lines that cannot be read, by number. -/
abbrev Reading := List IgnoreRule × List (Nat × IgnoreLineFault)

/-- The lines of a file as bytes. A line ends at a line feed and a return before it. -/
def byteLines : List UInt8 → List (List UInt8)
  | [] => []
  | bytes =>
    let parts := bytes.splitOn 0x0A
    let ended := parts.dropLast.map fun l => if l.getLast? = some 0x0D then l.dropLast else l
    if parts.getLast? = some [] then ended else ended ++ parts.getLast?.toList

/-- Byte order marks in front of the first line say nothing. -/
def withoutMarks (n : Nat) (line : List Char) : List Char :=
  if n = 1 then line.dropWhile (· == '\uFEFF') else line

/-- The lines from `n` on. A line that is no text ends the file. -/
def readLines (n : Nat) : List (List UInt8) → Reading
  | [] => ([], [])
  | bytes :: rest =>
    match (Utf8.decode? bytes).map (withoutMarks n) with
    | none => ([], [(n, .unreadable .notText)])
    | some line =>
      let more := readLines (n + 1) rest
      if IgnoreRule.isEmptyLine line then more
      else
        match IgnoreRule.read (IgnoreRule.trimLine line) with
        | .ok rule => (rule :: more.1, more.2)
        | .error e => (more.1, (n, .pattern (IgnoreRule.trimLine line) e) :: more.2)

def read (d : Disk) (p : Path) : Reading :=
  match d.readBytes p with
  | .ok bytes => readLines 1 (byteLines bytes)
  | .error e => ([], [(1, .unreadable e)])

def lineFaultText (p : Path) (n : Nat) (e : IgnoreLineFault) : List Char :=
  p.display ++ ": line ".toList ++ digits n ++ ": ".toList ++ e.message

/-- What the faults of a file say, one on a line. -/
def faultText (p : Path) : List (Nat × IgnoreLineFault) → List Char
  | [] => []
  | [(n, e)] => lineFaultText p n e
  | (n, e) :: rest => lineFaultText p n e ++ '\n' :: faultText p rest

/-- A path without `./` in front. -/
def withoutHere : List UInt8 → List UInt8
  | 0x2E :: 0x2F :: rest => rest
  | bytes => bytes

def withoutSlash : List UInt8 → List UInt8
  | 0x2F :: rest => rest
  | bytes => bytes

/-- The part of a path that the patterns are matched against: behind the root, if the path has a
slash and starts with the root's bytes. -/
def below (root : Path) (p : Path) : List UInt8 :=
  let bytes := withoutHere p.bytes
  if root.same .here || !bytes.contains Path.slash then bytes
  else
    match Path.bytesAfter? root.bytes bytes with
    | some rest => withoutSlash rest
    | none => bytes

/-- Whether the file leaves a path out. -/
def ignores (f : IgnoreFile) (isDir : Bool) (p : Path) : Bool :=
  let bytes := below f.root p
  match f.rules.reverse.find? fun r => (isDir || !r.dirsOnly) && r.glob.accepts bytes with
  | some r => !r.takesBack
  | none => false

end IgnoreFile

end CodeFolding
