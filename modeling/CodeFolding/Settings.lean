import CodeFolding.Path
import CodeFolding.Region.Policy
import CodeFolding.Text.Lowercase

/-!
Settings of a scan, and the files that they select by extension.
-/

set_option autoImplicit false

namespace CodeFolding

structure Settings where
  /-- The directory that is scanned. -/
  root : Path
  /-- The extensions of the files that are read, without the dot. -/
  extensions : List (List Char)
  /-- Patterns of paths that are left out. -/
  ignorePatterns : List (List Char)
  /-- A file of ignore rules instead of the one in the root. -/
  ignoreFile : Option Path
  /-- Whether dependencies and build output are scanned. -/
  includeDeps : Bool
  /-- How many threads may be used; zero leaves it open. -/
  threads : Nat
  /-- Files of more bytes are left out. -/
  maxFileSize : Nat
  policy : Policy
  deriving DecidableEq, Repr

namespace Settings

/-- The settings that hold unless others are given. -/
def standard (root : Path) : Settings :=
  ⟨root, ["rs".toList], [], none, false, 0, 10 * 1024 * 1024, .standard⟩

/-- Whether the extension of a path, in small letters, is one of the selected ones but for the case
of ASCII letters. -/
def selects (s : Settings) (p : Path) : Bool :=
  match p.extension? with
  | none => false
  | some ext =>
    let small := lowercase (Utf8.decodeLossy ext)
    s.extensions.any fun e => sameIgnoringAsciiCase e small

end Settings

end CodeFolding
