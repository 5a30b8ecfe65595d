import CodeFolding.Disk
import CodeFolding.Settings.File

/-!
Finding settings files on a disk.
-/

set_option autoImplicit false

namespace CodeFolding

/-- Why a settings file cannot be used. -/
inductive SettingsFault where
  | unreadable (fault : FileFault)
  | invalid (path : Path)
  deriving DecidableEq, Repr

def SettingsFault.message : SettingsFault → List Char
  | .unreadable e => "IO error: ".toList ++ e.message.toList
  | .invalid p => "Invalid config file ".toList ++ p.display

namespace SettingsFile

/-- The settings file at a path. -/
def load (d : Disk) (p : Path) : Except SettingsFault SettingsFile :=
  match d.readText p with
  | .error e => .error (.unreadable e)
  | .ok text => (parse? text).elim (.error (.invalid p)) .ok

/-- The settings file of a directory, if it has one. -/
def discover (d : Disk) (root : Path) : Except SettingsFault (Option SettingsFile) :=
  let path := root.join fileName
  if d.isFile path then (load d path).map some else .ok none

end SettingsFile

end CodeFolding
