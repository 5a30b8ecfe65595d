import CodeFolding.Path

/-!
Glob patterns and the bytes they stand for.

A pattern stands for the bytes of whole paths, so a wild card of one character stands for one byte,
and a class of characters for the bytes of their UTF-8 forms.
-/

set_option autoImplicit false

namespace CodeFolding

/-- A part of a pattern. -/
inductive GlobToken where
  | char (c : Char)
  /-- `?` -/
  | anyOne
  /-- `*` -/
  | anyMany
  /-- `**` and the slash behind it, at the start. -/
  | anyDirs
  /-- A slash and `**` at the end. -/
  | anyBelow
  /-- `**` between two slashes. -/
  | anyBetween
  | oneOf (negated : Bool) (ranges : List (Char × Char))
  /-- Alternatives in braces. -/
  | either (branches : List (List GlobToken))

/-- A pattern; `crossing` says whether `?` and `*` stand for slashes too. -/
structure Glob where
  tokens : List GlobToken
  crossing : Bool

namespace Glob

/-- Whether a byte belongs to a range of characters. A range goes from the last byte of the one
character to the first byte of the other; the bytes around them belong to it one by one. -/
def inRange (b : UInt8) (range : Char × Char) : Bool :=
  let first := Utf8.encode [range.1]
  let last := Utf8.encode [range.2]
  if range.1 = range.2 then first.contains b
  else
    first.dropLast.contains b || (last.drop 1).contains b ||
      (match first.getLast?, last.head? with
        | some lo, some hi => lo ≤ b && b ≤ hi
        | _, _ => false)

/-- Whether some end of the bytes is as wanted, all bytes before it being allowed. -/
def skipping (allowed : UInt8 → Bool) (k : List UInt8 → Bool) : List UInt8 → Bool
  | [] => k []
  | b :: s => k (b :: s) || (allowed b && skipping allowed k s)

/-- Whether what stands behind some slash is as wanted. -/
def behindSlash (k : List UInt8 → Bool) : List UInt8 → Bool
  | [] => false
  | b :: s => (b == Path.slash && k s) || behindSlash k s

/-- Whether a slash comes next and what stands behind it is as wanted. -/
def atSlash (k : List UInt8 → Bool) : List UInt8 → Bool
  | [] => false
  | b :: s => b == Path.slash && k s

mutual

/-- Whether a token stands for nothing whatever the bytes are. -/
def isVoid : GlobToken → Bool
  | .either branches => branchesAreVoid branches
  | _ => false

def areVoid : List GlobToken → Bool
  | [] => true
  | t :: rest => isVoid t && areVoid rest

def branchesAreVoid : List (List GlobToken) → Bool
  | [] => true
  | b :: rest => areVoid b && branchesAreVoid rest

end

mutual

/-- Whether a token matches the start of the bytes so that the rest of the bytes is as wanted. -/
def matchToken (crossing : Bool) : GlobToken → (List UInt8 → Bool) → List UInt8 → Bool
  | .char c, k, s => ((Path.bytesAfter? (String.utf8EncodeChar c) s).map k).getD false
  | .anyOne, k, s =>
    match s with
    | [] => false
    | b :: s => (crossing || b != Path.slash) && k s
  | .anyMany, k, s => skipping (fun b => crossing || b != Path.slash) k s
  | .anyDirs, k, s => k s || behindSlash k s
  | .anyBelow, k, s => atSlash (skipping (fun _ => true) k) s
  | .anyBetween, k, s => atSlash (fun s => k s || behindSlash k s) s
  | .oneOf negated ranges, k, s =>
    match s with
    | [] => false
    | b :: s => (ranges.any (inRange b) != negated) && k s
  | .either branches, k, s =>
    if branchesAreVoid branches then k s else matchBranches crossing branches k s

/-- Whether tokens match one after the other. -/
def matchTokens (crossing : Bool) : List GlobToken → (List UInt8 → Bool) → List UInt8 → Bool
  | [], k, s => k s
  | t :: rest, k, s => matchToken crossing t (matchTokens crossing rest k) s

/-- Whether one of the branches matches; a branch that stands for nothing is left out. -/
def matchBranches (crossing : Bool) :
    List (List GlobToken) → (List UInt8 → Bool) → List UInt8 → Bool
  | [], _, _ => false
  | b :: rest, k, s =>
    (!areVoid b && matchTokens crossing b k s) || matchBranches crossing rest k s

end

/-- Whether the tokens stand for the bytes. `**` alone stands for any. -/
def spells (g : Glob) (path : List UInt8) : Bool :=
  match g.tokens with
  | [.anyDirs] => true
  | tokens => matchTokens g.crossing tokens List.isEmpty path

end Glob

end CodeFolding
