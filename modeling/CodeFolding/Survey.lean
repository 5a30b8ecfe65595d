import CodeFolding.Path
import CodeFolding.Region
import CodeFolding.Tally

/-!
What is found in files: the regions of each, and the survey of a whole project.
-/

set_option autoImplicit false

namespace CodeFolding

/-- A source file with its regions. -/
structure FileFolds where
  /-- The path from the root of the project. -/
  path : Path
  /-- The path under which the file was reached. -/
  location : Path
  regions : List Region
  lineCount : Nat
  readable : Bool
  /-- Why the file could not be read. -/
  error : Option (List Char)
  deriving DecidableEq, Repr

namespace FileFolds

/-- How many import statements are merged in the file's import block. -/
def importCount (f : FileFolds) : Nat := ((f.regions.find? Region.isImports).bind (·.statements)).getD 0

/-- What a file counts. -/
def tally (f : FileFolds) : Tally :=
  { Tally.ofRegions f.regions with
    files := 1
    unreadable := if f.readable then 0 else 1
    lines := f.lineCount }

end FileFolds

/-- What some files count together. -/
def Tally.ofFiles (files : List FileFolds) : Tally :=
  files.foldl (fun t f => t.add f.tally) .zero

/-- When and how fast a survey ran, and which version of the program made it. -/
structure RunInfo where
  milliseconds : Nat
  filesPerSecond : Float
  timestamp : List Char
  version : List Char

/-- The regions of all files of a project. -/
structure Survey where
  root : Path
  files : List FileFolds
  tally : Tally
  run : RunInfo

end CodeFolding
