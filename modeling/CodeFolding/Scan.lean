import CodeFolding.Ignore
import CodeFolding.Region.Identify
import CodeFolding.Survey
import CodeFolding.View

/-!
Scanning a project: the files that the settings select, and the regions of each.
-/

set_option autoImplicit false

namespace CodeFolding

namespace Scan

/-- A path from the root of the scan, or the path itself if it lies elsewhere. -/
def relative (root p : Path) : Path := (p.relativeTo? root).getD p

/-- The regions of a file with a text. -/
def textFolds (s : Settings) (p : Path) (text : List Char) : FileFolds :=
  ⟨relative s.root p, p, identify s.policy text, (splitLines text).length, true, none⟩

/-- The regions of a single file. -/
def ofFile (s : Settings) (d : Disk) (p : Path) : Except FileFault FileFolds :=
  (d.readText p).map (textFolds s p)

/-- The regions of a file that is found; one that cannot be read or is no text has none. -/
def fileFolds (s : Settings) (d : Disk) (p : Path) : FileFolds :=
  match ofFile s d p with
  | .ok f => f
  | .error e => ⟨relative s.root p, p, [], 0, false, some e.message.toList⟩

/-- Whether a directory is not looked into. -/
def prunes (r : IgnoreRules) (p : Path) : Bool := r.ignores true p || p.isTooLong

/-- Whether a file is too large. One whose size cannot be had is not. -/
def tooLarge (s : Settings) (d : Disk) (p : Path) : Bool :=
  match d.readBytes p with
  | .ok bytes => s.maxFileSize < bytes.length
  | .error _ => false

/-- Whether a file is scanned. -/
def selects (s : Settings) (r : IgnoreRules) (d : Disk) (p : Path) : Bool :=
  !r.ignores false p && s.selects p && !tooLarge s d p

/-- The files that are scanned. -/
def files (s : Settings) (r : IgnoreRules) (d : Disk) : List FileFolds :=
  ((d.filesBelow (prunes r) s.root).filter (selects s r d)).map (fileFolds s d)

/-- The survey of a scan that ran as given. -/
def survey (s : Settings) (r : IgnoreRules) (run : RunInfo) (d : Disk) : Survey :=
  let found := files s r d
  ⟨s.root, found, Tally.ofFiles found, run⟩

/-- The view of a single file. -/
structure FileView where
  path : Path
  content : List Char
  regionCount : Nat
  hidden : Nat
  deriving DecidableEq, Repr

/-- The view of a text with the regions that start on some lines toggled. -/
def textView (style : Style) (s : Settings) (p : Path) (toggles : List Nat) (text : List Char) :
    FileView :=
  let regions := (Region.toggleAll (identify s.policy text) toggles).1
  ⟨p, View.render style text regions, regions.length, View.hidden text regions⟩

def view (style : Style) (s : Settings) (d : Disk) (p : Path) (toggles : List Nat) :
    Except FileFault FileView :=
  (d.readText p).map (textView style s p toggles)

end Scan

end CodeFolding
