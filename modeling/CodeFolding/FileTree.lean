import CodeFolding.Path

/-!
Trees of files and directories.
-/

set_option autoImplicit false

namespace CodeFolding

/-- A file with its bytes, or a directory with its entries in the order of their names. -/
inductive FileTree where
  | file (bytes : List UInt8)
  | dir (entries : List (Name × FileTree))

namespace FileTree

def empty : FileTree := .dir []

/-- The order of names, byte by byte. -/
def nameBefore : Name → Name → Bool
  | [], [] => false
  | [], _ :: _ => true
  | _ :: _, [] => false
  | a :: as, b :: bs => a < b || (a == b && nameBefore as bs)

def named? (name : Name) (entries : List (Name × FileTree)) : Option FileTree :=
  (entries.find? fun e => e.1 == name).map (·.2)

/-- Puts an entry in its place, in the stead of one with its name. -/
def putEntry (name : Name) (t : FileTree) : List (Name × FileTree) → List (Name × FileTree)
  | [] => [(name, t)]
  | e :: rest =>
    if e.1 = name then (name, t) :: rest
    else if nameBefore name e.1 then (name, t) :: e :: rest
    else e :: putEntry name t rest

/-- What lies at the end of some names. -/
def at? : List Name → FileTree → Option FileTree
  | [], t => some t
  | _ :: _, .file _ => none
  | name :: rest, .dir entries => (named? name entries).bind (at? rest)

/-- Puts a tree at the end of some names; directories on the way are made. -/
def put (new : FileTree) : List Name → FileTree → FileTree
  | [], _ => new
  | name :: rest, .dir entries =>
    .dir (putEntry name (put new rest ((named? name entries).getD empty)) entries)
  | name :: rest, .file _ => .dir [(name, put new rest empty)]

mutual

/-- The files at a path and below; a directory that is pruned is passed over with all that it
holds. -/
def walk (prune : Path → Bool) (p : Path) : FileTree → List Path
  | .file _ => [p]
  | .dir entries => if prune p then [] else walkEntries prune p entries

def walkEntries (prune : Path → Bool) (p : Path) : List (Name × FileTree) → List Path
  | [] => []
  | (name, t) :: rest => walk prune (p.join ⟨name⟩) t ++ walkEntries prune p rest

end

end FileTree

end CodeFolding
