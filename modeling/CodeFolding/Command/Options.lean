import CodeFolding.Path
import CodeFolding.Report
import CodeFolding.Text.Decimal

/-!
Options of the command line.

The words of a command line are first cut into tokens: options, their values, operands, and the
name of a subcommand with the words that belong to it. Then the tokens are taken one after the
other. Asking for help or for the version ends the reading at once; any fault makes the whole line
one of usage.
-/

set_option autoImplicit false

namespace CodeFolding.Command

/-- Where words stand: before a subcommand, or behind its name. -/
inductive Level where
  | top
  | list
  | render
  deriving DecidableEq, Repr

inductive Opt where
  | format
  | output
  | ignore
  | ignoreFile
  | includeDeps
  | threads
  | extension
  | config
  | foldAll
  | expandAll
  | noColour
  | verbose
  | ansi
  | toggle
  | help
  | version
  deriving DecidableEq, Repr

namespace Opt

def takesValue : Opt → Bool
  | .format | .output | .ignore | .ignoreFile | .threads | .extension | .config | .toggle => true
  | _ => false

/-- The options that have a long name. -/
def named : List (String × Opt) :=
  [("format", .format), ("output", .output), ("ignore", .ignore), ("ignore-file", .ignoreFile),
    ("include-deps", .includeDeps), ("threads", .threads), ("ext", .extension),
    ("config", .config), ("fold-all", .foldAll), ("expand-all", .expandAll),
    ("no-color", .noColour), ("verbose", .verbose), ("ansi", .ansi), ("toggle", .toggle),
    ("help", .help), ("version", .version)]

/-- The options that have a letter. -/
def lettered : List (Char × Opt) :=
  [('f', .format), ('o', .output), ('v', .verbose), ('h', .help), ('V', .version)]

/-- Whether an option may stand at a level. -/
def allowedAt : Level → Opt → Bool
  | .top, .ansi | .top, .toggle => false
  | .top, _ => true
  | .list, .format => true
  | .render, .ansi | .render, .toggle => true
  | _, .config | _, .foldAll | _, .expandAll | _, .noColour | _, .verbose | _, .help => true
  | _, _ => false

def ofName? (l : Level) (name : List Char) : Option Opt :=
  (named.find? fun n => n.1.toList == name && allowedAt l n.2).map (·.2)

def ofLetter? (l : Level) (c : Char) : Option Opt :=
  (lettered.find? fun n => n.1 == c && allowedAt l n.2).map (·.2)

end Opt

/-- A piece of a command line. A faulty piece ends it. -/
inductive Token where
  | flag (o : Opt)
  | value (o : Opt) (v : List Char)
  | operand (v : List Char)
  | sub (name : List Char) (rest : List (List Char))
  | faulty
  deriving DecidableEq, Repr

def subcommands : List String := ["list", "render", "help"]

def isSubcommand (l : Level) (word : List Char) : Bool :=
  l == .top && subcommands.any fun s => s.toList == word

/-- The options in letters behind one dash, and the one that waits for its value. A value may follow
its letter, with an equals sign or without. -/
def letterTokens (l : Level) : List Char → List Token × Option Opt
  | [] => ([], none)
  | c :: rest =>
    match Opt.ofLetter? l c with
    | none => ([.faulty], none)
    | some o =>
      if o.takesValue then
        match rest with
        | [] => ([], some o)
        | '=' :: v => ([.value o v], none)
        | v => ([.value o v], none)
      else (.flag o :: (letterTokens l rest).1, (letterTokens l rest).2)

/-- An option by its long name, perhaps with a value behind an equals sign. -/
def nameTokens (l : Level) (word : List Char) : List Token × Option Opt :=
  let name := word.takeWhile (· != '=')
  match Opt.ofName? l name, word.drop name.length with
  | none, _ => ([.faulty], none)
  | some o, [] => if o.takesValue then ([], some o) else ([.flag o], none)
  | some o, _ :: v => if o.takesValue then ([.value o v], none) else ([.faulty], none)

/-- The tokens of the words behind an option that waits for its value, if there is one. Behind the
word `--` there are operands only. -/
def tokens (l : Level) (waiting : Option Opt) (operandsOnly : Bool) :
    List (List Char) → List Token
  | [] => if waiting.isSome then [.faulty] else []
  | word :: rest =>
    if operandsOnly then .operand word :: tokens l none true rest
    else if waiting.isNone && isSubcommand l word then [.sub word rest]
    else
      match word, waiting with
      | '-' :: _ :: _, some _ => [.faulty]
      | '-' :: '-' :: [], none => tokens l none true rest
      | '-' :: '-' :: name, none =>
        (nameTokens l name).1 ++ tokens l (nameTokens l name).2 false rest
      | '-' :: c :: cs, none =>
        (letterTokens l (c :: cs)).1 ++ tokens l (letterTokens l (c :: cs)).2 false rest
      | v, some o => .value o v :: tokens l none false rest
      | v, none => .operand v :: tokens l none false rest

/-- What is given at one level. -/
structure Given where
  operand : Option Path
  format : Option Format
  output : Option Path
  ignore : List (List Char)
  ignoreFile : Option Path
  includeDeps : Bool
  threads : Option Nat
  extensions : List (List Char)
  config : Option Path
  foldAll : Bool
  expandAll : Bool
  noColour : Bool
  ansi : Bool
  toggles : List Nat

namespace Given

def nothing : Given :=
  ⟨none, none, none, [], none, false, none, [], none, false, false, false, false, []⟩

/-- A path is not empty. -/
def path? (v : List Char) : Option Path := if v = [] then none else some (.ofText v)

/-- A number of 64 bits in digits; a plus sign may stand in front. -/
def number? (v : List Char) : Option Nat :=
  let ds := match v with
    | '+' :: rest => rest
    | _ => v
  let n := Nat.ofDigitChars 10 ds 0
  if ds ≠ [] ∧ ds.all Char.isDigit ∧ n < 1 <<< 64 then some n else none

/-- A value that may be given once. -/
def once {α : Type} (old : Option α) (new : Option α) : Option (Option α) :=
  if old.isSome then none else new.map some

def addValue (g : Given) (v : List Char) : Opt → Option Given
  | .format => (once g.format (Format.ofName? v)).map fun x => { g with format := x }
  | .output => (once g.output (path? v)).map fun x => { g with output := x }
  | .ignore => some { g with ignore := g.ignore ++ [v] }
  | .ignoreFile => (once g.ignoreFile (path? v)).map fun x => { g with ignoreFile := x }
  | .threads => (once g.threads (number? v)).map fun x => { g with threads := x }
  | .extension => some { g with extensions := g.extensions ++ [v] }
  | .config => (once g.config (path? v)).map fun x => { g with config := x }
  | .toggle => (number? v).map fun n => { g with toggles := g.toggles ++ [n] }
  | _ => none

/-- A flag may be given once, but for the one that asks for more messages. -/
def addFlag (g : Given) : Opt → Option Given
  | .includeDeps => if g.includeDeps then none else some { g with includeDeps := true }
  | .foldAll => if g.foldAll then none else some { g with foldAll := true }
  | .expandAll => if g.expandAll then none else some { g with expandAll := true }
  | .noColour => if g.noColour then none else some { g with noColour := true }
  | .ansi => if g.ansi then none else some { g with ansi := true }
  | .verbose => some g
  | _ => none

def addOperand (g : Given) (v : List Char) : Option Given :=
  (once g.operand (path? v)).map fun x => { g with operand := x }

/-- Folding everything and expanding everything exclude each other; a subcommand needs a file. -/
def isComplete (l : Level) (g : Given) : Bool :=
  !(g.foldAll && g.expandAll) && (l == .top || g.operand.isSome)

end Given

/-- What the tokens of a level come to. -/
inductive Taken where
  | faulty
  | help
  | version
  | done (g : Given) (sub : Option (List Char × List (List Char)))

def take (g : Given) : List Token → Taken
  | [] => .done g none
  | .flag .help :: _ => .help
  | .flag .version :: _ => .version
  | .flag o :: rest => ((g.addFlag o).map fun g => take g rest).getD .faulty
  | .value o v :: rest => ((g.addValue v o).map fun g => take g rest).getD .faulty
  | .operand v :: rest => ((g.addOperand v).map fun g => take g rest).getD .faulty
  | .sub name rest :: _ => .done g (some (name, rest))
  | .faulty :: _ => .faulty

/-- What the program is asked to do. -/
inductive Task where
  | scan (given : Given)
  | list (given : Given) (file : Path) (format : Format)
  | render (given : Given) (file : Path) (ansi : Bool) (toggles : List Nat)

/-- What a command line asks for. -/
inductive Request where
  | usage
  | help
  | version
  | task (t : Task)

/-- Shared options may stand at either level; the one behind the subcommand counts. -/
def Given.share (outer inner : Given) : Given :=
  { outer with
    config := inner.config.or outer.config
    foldAll := inner.foldAll || outer.foldAll
    expandAll := inner.expandAll || outer.expandAll
    noColour := inner.noColour || outer.noColour }

/-- The words of a subcommand, behind what stands before it. -/
def readSub (outer : Given) (l : Level) (words : List (List Char)) : Request :=
  match take .nothing (tokens l none false words) with
  | .faulty | .version => .usage
  | .help => .help
  | .done inner _ =>
    match inner.operand with
    | none => .usage
    | some file =>
      if !inner.isComplete l || !outer.isComplete .top then .usage
      else
        match l with
        | .render => .task (.render (outer.share inner) file inner.ansi inner.toggles)
        | _ => .task (.list (outer.share inner) file (inner.format.getD .json))

/-- Help may be asked for about a subcommand. -/
def readHelp : List (List Char) → Request
  | [] => .help
  | [name] => if subcommands.any fun s => s.toList == name then .help else .usage
  | _ => .usage

def read (words : List (List Char)) : Request :=
  match take .nothing (tokens .top none false words) with
  | .faulty => .usage
  | .help => .help
  | .version => .version
  | .done g none => if g.isComplete .top then .task (.scan g) else .usage
  | .done g (some (name, rest)) =>
    if name = "list".toList then readSub g .list rest
    else if name = "render".toList then readSub g .render rest
    else readHelp rest

end CodeFolding.Command
