import CodeFolding.Text.Utf8

/-!
Paths of files: names set apart by slashes.

A path is a list of bytes and need not be UTF-8. Empty names and the name `.` say nothing, except
that a path may start with a slash or with `.`, which is its lead.
-/

set_option autoImplicit false

namespace CodeFolding

structure Path where
  bytes : List UInt8
  deriving DecidableEq, Repr

/-- A name in a path. -/
abbrev Name := List UInt8

namespace Path

def slash : UInt8 := 0x2F

def dot : UInt8 := 0x2E

/-- The bytes that follow others, if they start with them. -/
def bytesAfter? : List UInt8 → List UInt8 → Option (List UInt8)
  | [], s => some s
  | _ :: _, [] => none
  | p :: ps, b :: s => if p = b then bytesAfter? ps s else none

def ofText (cs : List Char) : Path := ⟨Utf8.encode cs⟩

/-- The text of a path in UTF-8. -/
def text? (p : Path) : Option (List Char) := Utf8.decode? p.bytes

/-- The text of a path, with replacement characters where it is not UTF-8. -/
def display (p : Path) : List Char := Utf8.decodeLossy p.bytes

def empty : Path := ⟨[]⟩

/-- Whether a path is longer than the system takes. -/
def isTooLong (p : Path) : Bool := 4096 ≤ p.bytes.length

/-- The current directory. -/
def here : Path := ⟨[dot]⟩

/-- What a path starts with. -/
inductive Lead where
  | bare
  | here
  | root
  deriving DecidableEq, Repr

/-- The parts between the slashes, the empty ones included. -/
def splitSlashes : List UInt8 → List Name
  | [] => [[]]
  | b :: rest =>
    if b = slash then [] :: splitSlashes rest
    else
      match splitSlashes rest with
      | [] => [[b]]
      | part :: parts => (b :: part) :: parts

def joinSlashes : List Name → List UInt8
  | [] => []
  | [part] => part
  | part :: parts => part ++ slash :: joinSlashes parts

/-- A part that says nothing. -/
def isFiller (part : Name) : Bool := part == [] || part == [dot]

/-- The lead of a path and the parts after it. -/
def split (p : Path) : Lead × List Name :=
  match splitSlashes p.bytes with
  | [] :: part :: parts => (.root, part :: parts)
  | part :: parts => if part == [dot] then (.here, parts) else (.bare, part :: parts)
  | [] => (.bare, [])

def dropFillersRight (parts : List Name) : List Name :=
  (parts.reverse.dropWhile isFiller).reverse

/-- A path of a lead and parts. -/
def ofParts (lead : Lead) (parts : List Name) : Path :=
  match lead, parts with
  | .bare, parts => ⟨joinSlashes parts⟩
  | .here, [] => here
  | .here, parts => ⟨dot :: slash :: joinSlashes parts⟩
  | .root, parts => ⟨slash :: joinSlashes parts⟩

/-- The names of a path after its lead. -/
def names (p : Path) : List Name := p.split.2.filter fun part => !isFiller part

/-- Two paths with the same lead and the same names. -/
def same (p q : Path) : Bool := p.split.1 == q.split.1 && p.names == q.names

/-- The parts behind some names, if the parts start with them. -/
def partsAfter? : List Name → List Name → Option (List Name)
  | [], parts => some parts
  | name :: rest, parts =>
    match parts.dropWhile isFiller with
    | [] => none
    | part :: more => if part = name then partsAfter? rest more else none

/-- The path without a root in front of it, if it lies under the root. -/
def relativeTo? (p root : Path) : Option Path :=
  let (lead, parts) := p.split
  if root.split.1 = .bare ∧ root.names = [] then some (ofParts lead (dropFillersRight parts))
  else if root.split.1 = lead then
    (partsAfter? root.names parts).map fun rest =>
      ofParts .bare (dropFillersRight (rest.dropWhile isFiller))
  else none

/-- A path taken from another one; one that starts with a slash stands for itself. -/
def join (p q : Path) : Path :=
  if q.bytes.head? = some slash then q
  else if p.bytes = [] ∨ p.bytes.getLast? = some slash then ⟨p.bytes ++ q.bytes⟩
  else ⟨p.bytes ++ slash :: q.bytes⟩

/-- The directory of the last name; none if there is no last name. -/
def parent? (p : Path) : Option Path :=
  let (lead, parts) := p.split
  match dropFillersRight parts with
  | [] => if lead = .here then some empty else none
  | part :: more => some (ofParts lead (dropFillersRight (part :: more).dropLast))

/-- The last name of a path, unless it is the directory above. -/
def fileName? (p : Path) : Option Name :=
  match p.names.getLast? with
  | some name => if name = [dot, dot] then none else some name
  | none => none

/-- What stands behind the last dot of a name; a dot in front does not count. -/
def extensionOf? (name : Name) : Option Name :=
  let after := name.reverse.takeWhile (· != dot)
  match name.reverse.drop after.length with
  | [] => none
  | [_] => none
  | _ => some after.reverse

def extension? (p : Path) : Option Name := p.fileName?.bind extensionOf?

end Path

end CodeFolding
