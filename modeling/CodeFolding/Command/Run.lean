import CodeFolding.Command.Options
import CodeFolding.Scan
import CodeFolding.Settings.Lookup
import CodeFolding.View

/-!
Running a command line on a disk: what is printed, what is written, and how the program ends.
-/

set_option autoImplicit false

namespace CodeFolding.Command

/-- Why a task fails: what is wrong first, and then what caused it. -/
inductive Failure where
  | settings (fault : SettingsFault)
  | ignoring (fault : IgnoreFault)
  | listing (file : Path) (fault : FileFault)
  | rendering (file : Path) (fault : FileFault)
  | reporting (fault : ReportError)
  | writing (file : Path) (fault : FileFault)

namespace Failure

/-- What is wrong, and each cause behind it. -/
def chain : Failure → List (List Char)
  | .settings (.unreadable e) =>
    [(SettingsFault.unreadable e).message, e.message.toList]
  | .settings e => [e.message]
  | .ignoring e => ["Config error: ".toList ++ e.message, e.message, e.cause]
  | .listing f e =>
    ["failed to read ".toList ++ f.display, "IO error: ".toList ++ e.message.toList,
      e.message.toList]
  | .rendering f e => ["failed to read ".toList ++ f.display, e.message.toList]
  | .reporting e => [e.message.toList, "path contains invalid UTF-8 characters".toList]
  | .writing f e => ["failed to write ".toList ++ f.display, e.message.toList]

/-- A text whose later lines start with a margin. -/
def withMargin (margin : List Char) : List Char → List Char
  | [] => []
  | c :: rest => if c = '\n' then c :: margin ++ withMargin margin rest else c :: withMargin margin rest

/-- Causes with their numbers, from `n` on. -/
def numbered (n : Nat) : List (List Char) → List Char
  | [] => []
  | c :: rest =>
    '\n' :: View.padLeft 5 (digits n) ++ ": ".toList ++ withMargin "       ".toList c ++
      numbered (n + 1) rest

/-- The message about a failure: several causes are numbered, a single one is not. -/
def message (f : Failure) : List Char :=
  "Error: ".toList ++
    (match f.chain with
      | [] => []
      | [e] => e
      | [e, c] => e ++ "\n\nCaused by:\n    ".toList ++ withMargin "    ".toList c
      | e :: causes => e ++ "\n\nCaused by:".toList ++ numbered 0 causes)
    ++ ['\n']

end Failure

/-- What a task comes to: the text that it prints, and the disk after it. -/
structure Done where
  printed : List Char
  disk : Disk

/-- The settings before the options of a task: those of a file laid over the standard ones. A file
is given, or looked up in the root. -/
def baseSettings (d : Disk) (g : Given) (root : Path) : Except Failure Settings :=
  let file := match g.config with
    | some p => (SettingsFile.load d p).map some
    | none => SettingsFile.discover d root
  match file with
  | .error e => .error (.settings e)
  | .ok file =>
    let s := match file with
      | some f => f.apply (.standard root)
      | none => .standard root
    .ok
      (if g.foldAll then { s with policy := .everything }
        else if g.expandAll then { s with policy := .nothing }
        else s)

/-- The settings of a scan. -/
def scanSettings (s : Settings) (g : Given) : Settings :=
  { s with
    ignorePatterns := s.ignorePatterns ++ g.ignore
    ignoreFile := g.ignoreFile.or s.ignoreFile
    includeDeps := g.includeDeps || s.includeDeps
    threads := g.threads.getD s.threads
    extensions :=
      if g.extensions.isEmpty then s.extensions
      else g.extensions.map fun e => e.dropWhile (· == '.') }

def rulesOf (d : Disk) (s : Settings) : Except Failure IgnoreRules :=
  match IgnoreRules.ofSettings d s with
  | .ok r => .ok r
  | .error e => .error (.ignoring e)

def reported (r : Except ReportError (List Char)) : Except Failure (List Char) :=
  match r with
  | .ok text => .ok text
  | .error e => .error (.reporting e)

/-- Scans a project and prints the survey or writes it into a file. -/
def scan (d : Disk) (run : RunInfo) (g : Given) : Except Failure Done := do
  let base ← baseSettings d g (g.operand.getD .here)
  let s := scanSettings base g
  let rules ← rulesOf d s
  let text ← reported ((Scan.survey s rules run d).report (g.format.getD .json))
  match g.output with
  | none => .ok ⟨text ++ ['\n'], d⟩
  | some p =>
    match d.write p (Utf8.encode text) with
    | .ok d => .ok ⟨[], d⟩
    | .error e => .error (.writing p e)

/-- The directory of a single file, where its settings are looked up. -/
def rootOf (file : Path) : Path :=
  match file.parent? with
  | some p => if p = .empty then .here else p
  | none => .here

/-- Prints the regions of a file. -/
def list (d : Disk) (g : Given) (file : Path) (format : Format) : Except Failure Done := do
  let s ← baseSettings d g (rootOf file)
  let _ ← rulesOf d s
  match Scan.ofFile s d file with
  | .error e => .error (.listing file e)
  | .ok f => (reported (f.report format)).map fun text => ⟨text ++ ['\n'], d⟩

/-- Colour is used if it is asked for, and on a terminal unless it is refused. -/
def styleOf (g : Given) (terminal ansi : Bool) : Style :=
  if ansi || (terminal && !g.noColour) then .coloured else .plain

/-- Prints the view of a file with some of its regions toggled. -/
def render (d : Disk) (terminal : Bool) (g : Given) (file : Path) (ansi : Bool)
    (toggles : List Nat) : Except Failure Done := do
  let s ← baseSettings d g (rootOf file)
  match Scan.view (styleOf g terminal ansi) s d file toggles with
  | .error e => .error (.rendering file e)
  | .ok v => .ok ⟨v.content, d⟩

/-- Does a task, on a terminal or not. -/
def Task.run (d : Disk) (run : RunInfo) (terminal : Bool) : Task → Except Failure Done
  | .scan g => Command.scan d run g
  | .list g file format => Command.list d g file format
  | .render g file ansi toggles => Command.render d terminal g file ansi toggles

/-- The version of the program, as surveys name it. -/
def version : String := "0.1.0"

def versionLine : List Char := "mta_rust_structuralcode_blockfold ".toList ++ version.toList ++ ['\n']

/-- How the program ends. -/
inductive Ending where
  | done (result : Done)
  | failed (why : Failure)
  | usage
  | help
  | version

def Ending.exitCode : Ending → Nat
  | .done _ | .help | .version => 0
  | .failed _ => 1
  | .usage => 2

/-- Runs a command line. -/
def run (d : Disk) (info : RunInfo) (terminal : Bool) (words : List (List Char)) : Ending :=
  match read words with
  | .usage => .usage
  | .help => .help
  | .version => .version
  | .task t =>
    match t.run d info terminal with
    | .ok r => .done r
    | .error e => .failed e

end CodeFolding.Command
