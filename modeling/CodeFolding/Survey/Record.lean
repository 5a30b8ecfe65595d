import CodeFolding.Data.Slots
import CodeFolding.Region.Policy
import CodeFolding.Survey

/-!
Regions, files and surveys as plain data, and taken out of plain data again.

A field that may be left out is left out when it says nothing. A path in data is a text, so one
that is not UTF-8 has no data.
-/

set_option autoImplicit false

namespace CodeFolding

open Data

/-- A field that is left out when it holds nothing. -/
def optionalField {α : Type} (name : String) (data : α → Data) : Option α → List (String × Data)
  | some x => [(name, data x)]
  | none => []

/-- A list that is left out when it is empty. -/
def listField {α : Type} (name : String) (data : α → Data) : List α → List (String × Data)
  | [] => []
  | x :: rest => [(name, .list ((x :: rest).map data))]

def Kind.data (k : Kind) : Data := .str k.name

/-- A kind is its name, or an object that gives its name the value null. -/
def Kind.ofData? : Data → Option Kind
  | .text name => Kind.ofName? name
  | .object [(name, .null)] => Kind.ofName? name
  | _ => none

def Span.data (s : Span) : Data := .record [("start_line", .nat s.first), ("end_line", .nat s.last)]

def Span.ofData? (d : Data) : Option Span :=
  match d.slots? false ["start_line", "end_line"] with
  | some [first, last] =>
    (first.bind nat?).bind fun first => (last.bind nat?).map fun last => ⟨first, last⟩
  | _ => none

def Region.data (r : Region) : Data :=
  .record
    ([("type", r.kind.data), ("start_line", .nat r.first), ("end_line", .nat r.last),
      ("actual_brace_line", .nat r.brace), ("level", .whole r.level), ("is_folded", .bool r.folded)]
      ++ optionalField "count" .nat r.statements
      ++ listField "original_lines_details" Span.data r.spans)

def Region.fieldNames : List String :=
  ["type", "start_line", "end_line", "actual_brace_line", "level", "is_folded", "count",
    "original_lines_details"]

def Region.ofData? (d : Data) : Option Region :=
  match d.slots? false Region.fieldNames with
  | some [kind, first, last, brace, level, folded, statements, spans] => do
    let kind ← kind.bind Kind.ofData?
    let first ← first.bind nat?
    let last ← last.bind nat?
    let brace ← brace.bind nat?
    let level ← level.bind int32?
    let folded ← folded.bind bool?
    let statements ← optional? none (nullable? nat?) statements
    let spans ← optional? [] (list? Span.ofData?) spans
    some ⟨kind, first, last, brace, level, folded, statements, spans⟩
  | _ => none

def Policy.fieldNames : List String := ["fn", "struct", "enum", "impl", "trait", "mod", "imports"]

def Policy.data (p : Policy) : Data :=
  .record [("fn", .bool p.fn), ("struct", .bool p.struct), ("enum", .bool p.enum),
    ("impl", .bool p.impl), ("trait", .bool p.trait), ("mod", .bool p.mod),
    ("imports", .bool p.imports)]

/-- A kind that is left out is folded as the standard says. `long` says whether a list may hold
more than the policy. -/
def Policy.ofData? (long : Bool) (d : Data) : Option Policy :=
  match d.slots? long Policy.fieldNames with
  | some [fn, struct, enum, impl, trait, mod, imports] => do
    let fn ← optional? standard.fn bool? fn
    let struct ← optional? standard.struct bool? struct
    let enum ← optional? standard.enum bool? enum
    let impl ← optional? standard.impl bool? impl
    let trait ← optional? standard.trait bool? trait
    let mod ← optional? standard.mod bool? mod
    let imports ← optional? standard.imports bool? imports
    some ⟨fn, struct, enum, impl, trait, mod, imports⟩
  | _ => none

/-- The text of a path. -/
def Path.data? (p : Path) : Option Data := p.text?.map .text

def Path.ofData? (d : Data) : Option Path := d.text?.map .ofText

def FileFolds.fieldNames : List String :=
  ["path", "absolute_path", "regions", "line_count", "parsed", "error"]

/-- None if one of the paths is not UTF-8. -/
def FileFolds.data? (f : FileFolds) : Option Data :=
  f.path.data?.bind fun path => f.location.data?.map fun location =>
    .record
      ([("path", path), ("absolute_path", location), ("regions", .list (f.regions.map Region.data)),
        ("line_count", .nat f.lineCount), ("parsed", .bool f.readable)]
        ++ optionalField "error" .text f.error)

def FileFolds.ofData? (d : Data) : Option FileFolds :=
  match d.slots? false FileFolds.fieldNames with
  | some [path, location, regions, lineCount, readable, error] => do
    let path ← path.bind Path.ofData?
    let location ← location.bind Path.ofData?
    let regions ← regions.bind (list? Region.ofData?)
    let lineCount ← lineCount.bind nat?
    let readable ← readable.bind bool?
    let error ← optional? none (nullable? text?) error
    some ⟨path, location, regions, lineCount, readable, error⟩
  | _ => none

def Tally.fieldNames : List String :=
  ["total_files", "files_with_errors", "total_regions", "fn_regions", "struct_regions",
    "impl_regions", "enum_regions", "trait_regions", "mod_regions", "import_blocks",
    "import_statements", "total_lines", "foldable_lines"]

def Tally.counters (t : Tally) : List Nat :=
  [t.files, t.unreadable, t.regions, t.fn, t.struct, t.impl, t.enum, t.trait, t.mod,
    t.importBlocks, t.importStatements, t.lines, t.foldableLines]

def Tally.data (t : Tally) : Data := .record (Tally.fieldNames.zip (t.counters.map .nat))

def Tally.ofCounters? : List Nat → Option Tally
  | [files, unreadable, regions, fn, struct, impl, enum, trait, mod, importBlocks,
      importStatements, lines, foldableLines] =>
    some ⟨files, unreadable, regions, fn, struct, impl, enum, trait, mod, importBlocks,
      importStatements, lines, foldableLines⟩
  | _ => none

def Tally.ofData? (d : Data) : Option Tally :=
  (d.slots? false Tally.fieldNames).bind fun slots =>
    (slots.mapM fun (slot : Option Data) => slot.bind nat?).bind Tally.ofCounters?

def RunInfo.fieldNames : List String :=
  ["scan_duration_ms", "files_per_second", "timestamp", "tool_version"]

def RunInfo.data (r : RunInfo) : Data :=
  .record [("scan_duration_ms", .nat r.milliseconds), ("files_per_second", .floating r.filesPerSecond),
    ("timestamp", .text r.timestamp), ("tool_version", .text r.version)]

def RunInfo.ofData? (d : Data) : Option RunInfo :=
  match d.slots? false RunInfo.fieldNames with
  | some [milliseconds, filesPerSecond, timestamp, version] => do
    let milliseconds ← milliseconds.bind nat?
    let filesPerSecond ← filesPerSecond.bind float?
    let timestamp ← timestamp.bind text?
    let version ← version.bind text?
    some ⟨milliseconds, filesPerSecond, timestamp, version⟩
  | _ => none

/-- None if one of the paths is not UTF-8. -/
def Survey.data? (s : Survey) : Option Data :=
  s.root.data?.bind fun root => (s.files.mapM FileFolds.data?).map fun files =>
    .record [("root", root), ("files", .list files), ("stats", s.tally.data), ("metadata", s.run.data)]

def Survey.ofData? (d : Data) : Option Survey :=
  match d.slots? false ["root", "files", "stats", "metadata"] with
  | some [root, files, tally, run] => do
    let root ← root.bind Path.ofData?
    let files ← files.bind (list? FileFolds.ofData?)
    let tally ← tally.bind Tally.ofData?
    let run ← run.bind RunInfo.ofData?
    some ⟨root, files, tally, run⟩
  | _ => none

end CodeFolding
