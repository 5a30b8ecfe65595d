import CodeFolding.Glob

/-!
Reading glob patterns.

`?`, `*` and `**` are wild cards, brackets hold a class and braces hold alternatives; a backslash
takes away the meaning of the next character.
-/

set_option autoImplicit false

namespace CodeFolding

/-- Why a pattern cannot be read. -/
inductive GlobFault where
  | openClass
  | backwardRange (lo hi : Char)
  | unopenedBraces
  | openBraces
  | lastBackslash
  deriving DecidableEq, Repr

namespace GlobFault

def message : GlobFault → List Char
  | .openClass => "unclosed character class; missing ']'".toList
  | .backwardRange lo hi =>
    "invalid range; '".toList ++ lo :: "' > '".toList ++ hi :: "'".toList
  | .unopenedBraces =>
    "unopened alternate group; missing '\x7b' (maybe escape '\x7d' with '[\x7d]'?)".toList
  | .openBraces =>
    "unclosed alternate group; missing '\x7d' (maybe escape '\x7b' with '[\x7b]'?)".toList
  | .lastBackslash => "dangling '\\'".toList

end GlobFault

namespace Glob

/-- How a pattern is read: whether `?` and `*` stand for slashes, and whether a bracket that is
never closed stands for itself. -/
structure Dialect where
  crossing : Bool
  looseBrackets : Bool
  deriving DecidableEq, Repr

/-- What stands between brackets, so far. -/
structure ClassSoFar where
  /-- The last range first. -/
  ranges : List (Char × Char)
  /-- A dash stands behind a character. -/
  dashed : Bool

/-- The next character of a class. -/
def ClassSoFar.add (s : ClassSoFar) (first : Bool) (c : Char) : Except GlobFault ClassSoFar :=
  match s.dashed, s.ranges with
  | true, (lo, _) :: rest =>
    if c < lo then .error (.backwardRange lo c) else .ok ⟨(lo, c) :: rest, false⟩
  | _, ranges => if c = '-' ∧ !first then .ok ⟨ranges, true⟩ else .ok ⟨(c, c) :: ranges, false⟩

def ClassSoFar.close (s : ClassSoFar) : List (Char × Char) :=
  (if s.dashed then ('-', '-') :: s.ranges else s.ranges).reverse

/-- The ranges of a class up to its bracket; none if it is never closed. A bracket in front belongs
to the class. -/
def readClass (first : Bool) (s : ClassSoFar) :
    List Char → Except GlobFault (Option (List (Char × Char) × List Char))
  | [] => .ok none
  | c :: rest =>
    if c = ']' ∧ !first then .ok (some (s.close, rest))
    else
      match s.add first c with
      | .ok s => readClass false s rest
      | .error e => .error e

/-- Takes the sign of a negated class off the front. -/
def splitNegation : List Char → Bool × List Char
  | '!' :: rest => (true, rest)
  | '^' :: rest => (true, rest)
  | cs => (false, cs)

/-- An open brace: what stands before it, and its branches that are done, the last first. -/
structure Group where
  before : List GlobToken
  branches : List (List GlobToken)

/-- A pattern that is read up to some place. -/
structure Reading where
  /-- The tokens of the branch that is being read, the last first. -/
  tokens : List GlobToken
  /-- The open braces, the innermost first. -/
  groups : List Group
  /-- The character before. -/
  before : Option Char
  /-- A bracket that is never closed has been seen. -/
  sawOpenClass : Bool

namespace Reading

def push (s : Reading) (t : GlobToken) : Reading := { s with tokens := t :: s.tokens }

def pushMany (s : Reading) : Reading := (s.push .anyMany).push .anyMany

/-- What `**` means before some text, and the text after it with the slash that belongs to it. A
`**` that is no whole component is two single wild cards. -/
def doubleStar (s : Reading) (rest : List Char) : Reading × List Char :=
  if s.tokens.isEmpty then
    match rest with
    | [] => (s.push .anyDirs, [])
    | '/' :: more => ({ s.push .anyDirs with before := some '/' }, more)
    | _ => ({ s.pushMany with before := some '*' }, rest)
  else if s.before ≠ some '/' ∧
      (s.groups.isEmpty ∨ (s.before ≠ some ',' ∧ s.before ≠ some '\x7b')) then
    ({ s.pushMany with before := some '*' }, rest)
  else
    let replace := fun (t : GlobToken) =>
      match s.tokens with
      | .anyDirs :: _ => s.tokens
      | .anyBelow :: _ => s.tokens
      | _ :: older => t :: older
      | [] => [t]
    match rest with
    | [] => ({ s with tokens := replace .anyBelow }, [])
    | '/' :: more => ({ s with tokens := replace .anyBetween, before := some '/' }, more)
    | c :: _ =>
      if (c = ',' ∨ c = '\x7d') ∧ !s.groups.isEmpty then
        ({ s with tokens := replace .anyBelow, before := some '*' }, rest)
      else ({ s.pushMany with before := some '*' }, rest)

end Reading

/-- Reads on to the end of a pattern; `fuel` bounds its length. -/
def readOn (d : Dialect) : Nat → Reading → List Char → Except GlobFault (List GlobToken)
  | _, s, [] => if s.groups.isEmpty then .ok s.tokens.reverse else .error .openBraces
  | 0, s, _ => .ok s.tokens.reverse
  | fuel + 1, s, c :: rest =>
    let next : Reading := { s with before := some c }
    if c = '?' then readOn d fuel (next.push .anyOne) rest
    else if c = '*' then
      match rest with
      | '*' :: more =>
        let (s, more) := s.doubleStar more
        readOn d fuel s more
      | _ => readOn d fuel (next.push .anyMany) rest
    else if c = '[' ∧ !s.sawOpenClass then
      let (negated, inner) := splitNegation rest
      match readClass true ⟨[], false⟩ inner with
      | .ok (some (ranges, more)) =>
        readOn d fuel (({ s with before := some ']' } : Reading).push (.oneOf negated ranges)) more
      | .ok none =>
        if d.looseBrackets then
          readOn d fuel ({ next with sawOpenClass := true }.push (.char '[')) rest
        else .error .openClass
      | .error e => .error e
    else if c = '\x7b' then
      readOn d fuel ⟨[], ⟨s.tokens, []⟩ :: s.groups, some c, s.sawOpenClass⟩ rest
    else if c = '\x7d' then
      match s.groups with
      | [] => .error .unopenedBraces
      | g :: groups =>
        let branches := (s.tokens.reverse :: g.branches).reverse
        readOn d fuel ⟨.either branches :: g.before, groups, some c, s.sawOpenClass⟩ rest
    else if c = ',' then
      match s.groups with
      | [] => readOn d fuel (next.push (.char ',')) rest
      | g :: groups =>
        readOn d fuel
          ⟨[], ⟨g.before, s.tokens.reverse :: g.branches⟩ :: groups, some c, s.sawOpenClass⟩ rest
    else if c = '\\' then
      match rest with
      | [] => .error .lastBackslash
      | e :: more => readOn d fuel (({ s with before := some e } : Reading).push (.char e)) more
    else readOn d fuel (next.push (.char c)) rest

/-- The pattern of a text. -/
def read (d : Dialect) (pattern : List Char) : Except GlobFault Glob :=
  (readOn d (pattern.length + 1) ⟨[], [], none, false⟩ pattern).map fun tokens =>
    ⟨tokens, d.crossing⟩

/-- The message about a pattern that cannot be read. -/
def faultText (pattern : List Char) (e : GlobFault) : List Char :=
  "error parsing glob '".toList ++ pattern ++ "': ".toList ++ e.message

end Glob

end CodeFolding
