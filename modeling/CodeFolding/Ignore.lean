import CodeFolding.Glob.Expression
import CodeFolding.Ignore.Rule
import CodeFolding.Settings

/-!
Which paths a scan leaves out: build output and dependencies, paths that match a pattern of the
settings, and what the ignore file of the root says.
-/

set_option autoImplicit false

namespace CodeFolding

/-- Why the rules of a scan cannot be made. -/
inductive IgnoreFault where
  | pattern (pattern : List Char) (fault : GlobFault)
  | deepPattern (fault : Glob.DepthFault)
  | file (path : Path) (faults : List (Nat × IgnoreLineFault))
  | deepFile (fault : Glob.DepthFault)

namespace IgnoreFault

/-- What is wrong. -/
def cause : IgnoreFault → List Char
  | .pattern p e => Glob.faultText p e
  | .deepPattern e => e.message
  | .file p faults => IgnoreFile.faultText p faults
  | .deepFile e => e.message

/-- Whether the fault lies in the ignore file. -/
def ofFile : IgnoreFault → Bool
  | .pattern _ _ | .deepPattern _ => false
  | .file _ _ | .deepFile _ => true

/-- What is wrong, and with what. -/
def message (e : IgnoreFault) : List Char :=
  (if e.ofFile then "Failed to parse gitignore: " else "Failed to build glob pattern: ").toList
    ++ e.cause

end IgnoreFault

structure IgnoreRules where
  file : Option IgnoreFile
  patterns : List Glob
  standard : List Glob

namespace IgnoreRules

/-- In a pattern of the settings wild cards stand for slashes too. -/
def dialect : Glob.Dialect := ⟨true, false⟩

/-- Below a directory with a name, at any depth. -/
def belowName (name : String) : Glob :=
  ⟨.anyDirs :: name.toList.map .char ++ [.anyBelow], true⟩

/-- Build output, dependencies and the store of versions. -/
def standardGlobs : List Glob :=
  ["target", "vendor", ".cargo", ".git", "node_modules"].map belowName

/-- The ignore file of a scan, unless another is given. -/
def fileName : Path := .ofText ".gitignore".toList

def readPatterns : List (List Char) → Except IgnoreFault (List Glob)
  | [] => .ok []
  | p :: rest =>
    match Glob.read dialect p with
    | .error e => .error (.pattern p e)
    | .ok g => (readPatterns rest).map (g :: ·)

/-- The patterns of the settings. -/
def settingsGlobs (s : Settings) : Except IgnoreFault (List Glob) :=
  match readPatterns s.ignorePatterns with
  | .error e => .error e
  | .ok globs =>
    match Glob.depthFault? globs with
    | none => .ok globs
    | some e => .error (.deepPattern e)

/-- The ignore file of the settings, if it is there. -/
def readFile (d : Disk) (s : Settings) : Except IgnoreFault (Option IgnoreFile) :=
  let path := s.ignoreFile.getD (s.root.join fileName)
  if d.contains path then
    match IgnoreFile.read d path with
    | (rules, []) =>
      match Glob.depthFault? (rules.map (·.glob)) with
      | none => .ok (some ⟨⟨IgnoreFile.withoutHere s.root.bytes⟩, rules⟩)
      | some e => .error (.deepFile e)
    | (_, faults) => .error (.file path faults)
  else .ok none

/-- The rules of a scan. A fault of the ignore file counts before one of the patterns. -/
def ofSettings (d : Disk) (s : Settings) : Except IgnoreFault IgnoreRules :=
  match readFile d s with
  | .error e => .error e
  | .ok file =>
    (settingsGlobs s).map fun patterns =>
      ⟨file, patterns, if s.includeDeps then [] else standardGlobs⟩

/-- Whether a path is left out. Patterns see its text, with replacement characters where it is not
UTF-8. -/
def ignores (r : IgnoreRules) (isDir : Bool) (p : Path) : Bool :=
  let text := Utf8.encode p.display
  r.standard.any (·.accepts text) || r.patterns.any (·.accepts text) ||
    (match r.file with
      | some f => f.ignores isDir p
      | none => false)

end IgnoreRules

end CodeFolding
