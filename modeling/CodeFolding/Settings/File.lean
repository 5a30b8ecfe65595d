import CodeFolding.Settings
import CodeFolding.Survey.Record
import CodeFolding.Toml.Reader

/-!
Settings files, and laying one over other settings.
-/

set_option autoImplicit false

namespace CodeFolding

/-- What a settings file says; what it leaves out is none. -/
structure SettingsFile where
  policy : Option Policy
  ignorePatterns : List (List Char)
  extensions : Option (List (List Char))
  threads : Option Nat
  includeDeps : Option Bool
  maxFileSize : Option Nat
  deriving DecidableEq, Repr

namespace SettingsFile

/-- The name under which a settings file is looked up. -/
def fileName : Path := .ofText "blockfold.toml".toList

def empty : SettingsFile := ⟨none, [], none, none, none, none⟩

/-- The fields of an object that holds no others, or of a list. -/
def onlySlots? (names : List String) (d : Data) : Option (List (Option Data)) :=
  match d with
  | .object fields =>
    if fields.all fun f => names.any fun n => n.toList == f.1 then d.slots? true names else none
  | _ => d.slots? true names

def present? {α : Type} (value? : Data → Option α) : Option Data → Option (Option α)
  | none => some none
  | some d => (value? d).map some

/-- The part of a settings file about scanning. -/
def ofScan? (policy : Option Policy) (d : Data) : Option SettingsFile :=
  match onlySlots? ["ignore", "extensions", "threads", "include_deps", "max_file_size"] d with
  | some [ignore, extensions, threads, includeDeps, maxFileSize] => do
    let ignore ← Data.optional? [] (Data.list? Data.text?) ignore
    let extensions ← present? (Data.list? Data.text?) extensions
    let threads ← present? Data.nat? threads
    let includeDeps ← present? Data.bool? includeDeps
    let maxFileSize ← present? Data.nat? maxFileSize
    some ⟨policy, ignore, extensions, threads, includeDeps, maxFileSize⟩
  | _ => none

def ofData? (d : Data) : Option SettingsFile :=
  match onlySlots? ["fold", "scan"] d with
  | some [fold, scan] => do
    let policy ← present? (Policy.ofData? true) fold
    match scan with
    | some scan => ofScan? policy scan
    | none => some { empty with policy := policy }
  | _ => none

/-- The settings file of a text. -/
def parse? (text : List Char) : Option SettingsFile := (Toml.read? text).bind ofData?

/-- Lays a settings file over other settings. Patterns are added, all else is replaced. -/
def apply (f : SettingsFile) (s : Settings) : Settings :=
  { s with
    policy := f.policy.getD s.policy
    ignorePatterns := s.ignorePatterns ++ f.ignorePatterns
    extensions := f.extensions.getD s.extensions
    threads := f.threads.getD s.threads
    includeDeps := f.includeDeps.getD s.includeDeps
    maxFileSize := f.maxFileSize.getD s.maxFileSize }

end SettingsFile

end CodeFolding
