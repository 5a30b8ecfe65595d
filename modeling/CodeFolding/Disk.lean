import CodeFolding.FileTree

/-!
A disk: a tree of files, and the directory from which paths are followed.

Paths are followed name by name. A path that starts with a slash starts at the top of the tree, and
nothing lies above the top.
-/

set_option autoImplicit false

namespace CodeFolding

/-- Why a path does not lead to what is wanted. -/
inductive FileFault where
  | notFound
  | notDirectory
  | isDirectory
  | notText
  | nulInName
  | nameTooLong
  deriving DecidableEq, Repr

def FileFault.message : FileFault → String
  | .notFound => "No such file or directory (os error 2)"
  | .notDirectory => "Not a directory (os error 20)"
  | .isDirectory => "Is a directory (os error 21)"
  | .notText => "stream did not contain valid UTF-8"
  | .nulInName => "file name contained an unexpected NUL byte"
  | .nameTooLong => "File name too long (os error 36)"

/-- A tree, and the names that lead to the working directory in it. -/
structure Disk where
  tree : FileTree
  place : List Name

namespace Disk

/-- Follows the parts of a path from a place on. -/
def follow (t : FileTree) : List Name → List Name → Except FileFault (List Name)
  | place, [] => .ok place
  | place, part :: rest =>
    match t.at? place with
    | none => .error .notFound
    | some (.file _) => .error .notDirectory
    | some (.dir entries) =>
      if Path.isFiller part then follow t place rest
      else if part = [Path.dot, Path.dot] then follow t place.dropLast rest
      else if 255 < part.length then .error .nameTooLong
      else
        match FileTree.named? part entries with
        | some _ => follow t (place ++ [part]) rest
        | none => .error .notFound

/-- Where a path starts, and its parts from there. -/
def start (d : Disk) (p : Path) : Except FileFault (List Name × List Name) :=
  if p.bytes.contains 0 then .error .nulInName
  else if p.isTooLong then .error .nameTooLong
  else
    match p.bytes with
    | [] => .error .notFound
    | b :: rest =>
      if b = Path.slash then .ok ([], Path.splitSlashes rest)
      else .ok (d.place, Path.splitSlashes (b :: rest))

/-- Where a path leads. -/
def locate (d : Disk) (p : Path) : Except FileFault (List Name) := do
  let (place, parts) ← d.start p
  follow d.tree place parts

/-- What a path leads to. -/
def find (d : Disk) (p : Path) : Except FileFault FileTree := do
  let found ← d.locate p
  (d.tree.at? found).elim (.error .notFound) .ok

def contains (d : Disk) (p : Path) : Bool := (d.find p).toBool

def isFile (d : Disk) (p : Path) : Bool :=
  match d.find p with
  | .ok (.file _) => true
  | _ => false

def readBytes (d : Disk) (p : Path) : Except FileFault (List UInt8) :=
  match d.find p with
  | .ok (.file bytes) => .ok bytes
  | .ok (.dir _) => .error .isDirectory
  | .error e => .error e

/-- The text of some bytes. -/
def textOf (bytes : List UInt8) : Except FileFault (List Char) :=
  (Utf8.decode? bytes).elim (.error .notText) .ok

def readText (d : Disk) (p : Path) : Except FileFault (List Char) := (d.readBytes p).bind textOf

/-- Writes a file into a directory that is there. A path that ends in a slash names no file. -/
def write (d : Disk) (p : Path) (bytes : List UInt8) : Except FileFault Disk := do
  let (place, parts) ← d.start p
  let named := (parts.reverse.dropWhile (· == [])).reverse
  match named.getLast? with
  | none => .error .isDirectory
  | some last =>
    let place ← follow d.tree place named.dropLast
    match d.tree.at? place with
    | some (.dir entries) =>
      if last = [Path.dot] ∨ last = [Path.dot, Path.dot] ∨ named.length < parts.length then
        .error .isDirectory
      else if 255 < last.length then .error .nameTooLong
      else
        match FileTree.named? last entries with
        | some (.dir _) => .error .isDirectory
        | _ => .ok { d with tree := FileTree.put (.file bytes) (place ++ [last]) d.tree }
    | some (.file _) => .error .notDirectory
    | none => .error .notFound

/-- The files at a path and below, without those in pruned directories; none if the path leads
nowhere. -/
def filesBelow (prune : Path → Bool) (d : Disk) (p : Path) : List Path :=
  match d.find p with
  | .ok found => FileTree.walk prune p found
  | .error _ => []

end Disk

end CodeFolding
