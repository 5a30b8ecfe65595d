import CodeFolding.Json.Writer
import CodeFolding.Number.Fixed
import CodeFolding.Survey.Record
import CodeFolding.Yaml.Writer

/-!
Reports on files and surveys: as JSON, as YAML, or as a summary, plain or coloured.
-/

set_option autoImplicit false

namespace CodeFolding

inductive Format where
  | json
  | yaml
  | summary
  | ansi
  deriving DecidableEq, Repr

namespace Format

def all : List Format := [.json, .yaml, .summary, .ansi]

def name : Format → String
  | .json => "json"
  | .yaml => "yaml"
  | .summary => "summary"
  | .ansi => "ansi"

def ofName? (cs : List Char) : Option Format := all.find? fun f => f.name.toList == cs

end Format

/-- Why a report cannot be written: a path in it is not UTF-8, and the format takes texts only. -/
inductive ReportError where
  | jsonPath
  | yamlPath
  deriving DecidableEq, Repr

def ReportError.message : ReportError → String
  | .jsonPath => "JSON serialization error: path contains invalid UTF-8 characters"
  | .yamlPath => "YAML serialization error: path contains invalid UTF-8 characters"

namespace Report

/-- Texts one after the other. -/
def line (parts : List (List Char)) : List Char := parts.flatten

def txt (s : String) : List Char := s.toList

/-! The regions of one file. -/

def spanLabel (s : Span) : List Char :=
  if s.first = s.last then digits s.first else digits s.first ++ '-' :: digits s.last

def commaList : List (List Char) → List Char
  | [] => []
  | [x] => x
  | x :: rest => x ++ ',' :: ' ' :: commaList rest

def regionLabel (r : Region) : List Char :=
  if r.isImports then
    line [txt "use block (", digits (r.statements.getD 0), txt " statements, lines ",
      commaList (r.spans.map spanLabel), txt ")"]
  else
    line [txt r.kind.name, txt " (lines ", digits r.first, txt "-", digits r.last, txt ", brace ",
      digits r.brace, txt ", level ", signedDigits r.level, txt ")"]

/-- The rows of the regions, numbered from `n` on. -/
def regionRows (n : Nat) : List Region → List (List Char)
  | [] => []
  | r :: rest =>
    line [digits n, txt ". ", regionLabel r, txt (if r.folded then " [folded]" else ""), txt "\n"]
      :: regionRows (n + 1) rest

/-- The regions of a file, one on a line. -/
def listing (f : FileFolds) : List Char :=
  line [txt "File: ", f.path.display, txt "\nLine Count: ", digits f.lineCount, txt "\nRegions: ",
    digits f.regions.length, txt "\n\n"]
    ++ (match f.error with
      | some e => line [txt "Error: ", e, txt "\n"]
      | none => [])
    ++ (regionRows 1 f.regions).flatten

/-! The summary of a survey. -/

/-- How many in a hundred lines are foldable. The counters are words of 64 bits. -/
def foldablePercent (t : Tally) : Float :=
  let lines := t.lines.toUInt64
  if lines = 0 then 0 else t.foldableLines.toUInt64.toFloat / lines.toFloat * 100

/-- The files with the most regions, five at most, the first of equals first. -/
def topFiles (files : List FileFolds) : List FileFolds :=
  ((files.filter fun f => !f.regions.isEmpty).mergeSort
    fun a b => b.regions.length ≤ a.regions.length).take 5

def percentText (t : Tally) : List Char := (Binary.ofFloat (foldablePercent t)).fixed 1

def speedText (r : RunInfo) : List Char := (Binary.ofFloat r.filesPerSecond).fixed 2

def summary (s : Survey) : List Char :=
  let t := s.tally
  let top := topFiles s.files
  line [txt "Fold Region Summary\n===================\nRoot: ", s.root.display, txt "\n\n"]
    ++ line [txt "Files Scanned: ", digits t.files, txt " (", digits t.unreadable,
      txt " unreadable)\nTotal Lines: ", digits t.lines, txt " | Foldable Lines: ",
      digits t.foldableLines, txt " (", percentText t, txt "%)\n\n"]
    ++ line [txt "Total Regions: ", digits t.regions, txt "\n- fn: ", digits t.fn,
      txt "\n- struct: ", digits t.struct, txt "\n- impl: ", digits t.impl, txt "\n- enum: ",
      digits t.enum, txt "\n- trait: ", digits t.trait, txt "\n- mod: ", digits t.mod,
      txt "\n- use blocks: ", digits t.importBlocks, txt " (", digits t.importStatements,
      txt " statements)\n\n"]
    ++ (if top.isEmpty then []
      else txt "Top files by regions:\n"
        ++ top.flatMap (fun f => line [txt "  ", f.path.display, txt " (", digits f.regions.length,
          txt " regions, ", digits f.lineCount, txt " lines)\n"])
        ++ ['\n'])
    ++ line [txt "Scan Duration: ", digits s.run.milliseconds, txt "ms (", speedText s.run,
      txt " files/sec)\nTimestamp: ", s.run.timestamp, txt "\nTool Version: ", s.run.version,
      txt "\n"]

def bold : List Char := txt "\x1b[1m"

def reset : List Char := txt "\x1b[0m"

def cyan : List Char := txt "\x1b[36m"

def yellow : List Char := txt "\x1b[33m"

/-- A faint text, as labels are. -/
def faint (s : String) : List Char := txt "\x1b[2m" ++ txt s ++ reset

def colouredSummary (s : Survey) : List Char :=
  let t := s.tally
  let top := topFiles s.files
  line [bold, cyan, txt "Fold Region Summary", reset, txt "\n", cyan, txt "===================",
      reset, txt "\n", faint "Root:", txt " ", s.root.display, txt "\n\n"]
    ++ line [faint "Files Scanned:", txt " ", digits t.files, txt " | ", faint "Total Lines:",
      txt " ", digits t.lines, txt " | ", faint "Foldable:", txt " ", digits t.foldableLines,
      txt " (", percentText t, txt "%)\n\n"]
    ++ line [faint "Total Regions:", txt " ", digits t.regions, txt "\n", faint "  fn:", txt " ",
      digits t.fn, txt " | ", faint "struct:", txt " ", digits t.struct, txt " | ", faint "impl:",
      txt " ", digits t.impl, txt " | ", faint "enum:", txt " ", digits t.enum, txt "\n",
      faint "  trait:", txt " ", digits t.trait, txt " | ", faint "mod:", txt " ", digits t.mod,
      txt " | ", faint "use:", txt " ", digits t.importBlocks, txt " (",
      digits t.importStatements, txt " statements)\n\n"]
    ++ (if top.isEmpty then []
      else faint "Top files by regions:" ++ txt "\n"
        ++ top.flatMap (fun f => line [txt "  ", yellow, f.path.display, reset, txt " (", cyan,
          digits f.regions.length, txt " regions", reset, txt ", ", digits f.lineCount,
          txt " lines)\n"])
        ++ ['\n'])
    ++ line [faint "Scan:", txt " ", digits s.run.milliseconds, txt "ms (", speedText s.run,
      txt " files/sec)\n"]

end Report

/-- The report on one file. -/
def FileFolds.report (format : Format) (f : FileFolds) : Except ReportError (List Char) :=
  match format with
  | .json => (f.data?.map Json.pretty).elim (.error .jsonPath) .ok
  | .yaml => (f.data?.map Yaml.write).elim (.error .yamlPath) .ok
  | .summary | .ansi => .ok (Report.listing f)

/-- The report on a survey. -/
def Survey.report (format : Format) (s : Survey) : Except ReportError (List Char) :=
  match format with
  | .json => (s.data?.map Json.pretty).elim (.error .jsonPath) .ok
  | .yaml => (s.data?.map Yaml.write).elim (.error .yamlPath) .ok
  | .summary => .ok (Report.summary s)
  | .ansi => .ok (Report.colouredSummary s)

end CodeFolding
