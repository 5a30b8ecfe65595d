import CodeFolding.Command.Run

/-!
What a task takes from a disk: some files and directories under their own names, and for a scan what
lies below its root. Nothing else needs to be read before the task runs.
-/

set_option autoImplicit false

namespace CodeFolding.Command

/-- The settings file and the ignore file of a directory, as given or under their own names. -/
def Given.rulePaths (g : Given) (root : Path) : List Path :=
  [g.config.getD (root.join SettingsFile.fileName),
    g.ignoreFile.getD (root.join IgnoreRules.fileName)]

/-- The paths that a task follows. -/
def Task.paths : Task → List Path
  | .scan g => g.rulePaths (g.operand.getD .here) ++ [g.operand.getD .here] ++ g.output.toList
  | .list g file _ => g.rulePaths (rootOf file) ++ [file]
  | .render g file _ _ => g.rulePaths (rootOf file) ++ [file]

/-- The file that a task writes. -/
def Task.output? : Task → Option Path
  | .scan g => g.output
  | _ => none

/-- What a scan reads below its root. -/
structure Extent where
  root : Path
  /-- The directories that it looks into. -/
  enters : Path → Bool
  /-- The files that it reads. -/
  reads : Path → Bool
  /-- It reads no file with more bytes, if it can have their number. -/
  maxFileSize : Nat

/-- How many files are read. -/
def Extent.count (e : Extent) (d : Disk) : Nat :=
  ((d.filesBelow (fun p => !e.enters p) e.root).filter e.reads).length

/-- What a task reads of a directory, as far as its settings and rules can be made. -/
def Task.extent? (d : Disk) : Task → Option Extent
  | .scan g => do
    let base ← (baseSettings d g (g.operand.getD .here)).toOption
    let s := scanSettings base g
    let r ← (rulesOf d s).toOption
    some ⟨s.root, fun p => !Scan.prunes r p, fun p => !r.ignores false p && s.selects p,
      s.maxFileSize⟩
  | _ => none

end CodeFolding.Command
