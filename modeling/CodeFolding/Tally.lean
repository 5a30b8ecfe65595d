import CodeFolding.Region

/-!
Counts over regions and files.
-/

set_option autoImplicit false

namespace CodeFolding

structure Tally where
  files : Nat
  unreadable : Nat
  regions : Nat
  fn : Nat
  struct : Nat
  impl : Nat
  enum : Nat
  trait : Nat
  mod : Nat
  importBlocks : Nat
  importStatements : Nat
  lines : Nat
  foldableLines : Nat
  deriving DecidableEq, Repr

namespace Tally

def zero : Tally := ⟨0, 0, 0, 0, 0, 0, 0, 0, 0, 0, 0, 0, 0⟩

/-- Counter by counter. -/
def add (s t : Tally) : Tally :=
  ⟨s.files + t.files, s.unreadable + t.unreadable, s.regions + t.regions, s.fn + t.fn,
    s.struct + t.struct, s.impl + t.impl, s.enum + t.enum, s.trait + t.trait, s.mod + t.mod,
    s.importBlocks + t.importBlocks, s.importStatements + t.importStatements, s.lines + t.lines,
    s.foldableLines + t.foldableLines⟩

/-- A region counts once in the counter of its kind. -/
def ofKind : Kind → Tally
  | .fn => { zero with fn := 1 }
  | .struct => { zero with struct := 1 }
  | .impl => { zero with impl := 1 }
  | .enum => { zero with enum := 1 }
  | .trait => { zero with trait := 1 }
  | .mod => { zero with mod := 1 }
  | .imports => { zero with importBlocks := 1 }

/-- What one region counts. -/
def ofRegion (r : Region) : Tally :=
  { ofKind r.kind with
    regions := 1
    importStatements := if r.isImports then r.statements.getD 0 else 0
    foldableLines := r.collapsedLines }

/-- What some regions count together. -/
def ofRegions (regions : List Region) : Tally :=
  regions.foldl (fun t r => t.add (ofRegion r)) zero

/-- The tallies after each region in turn, from a tally on. -/
def running (t : Tally) : List Region → List Tally
  | [] => []
  | r :: rest => t.add (ofRegion r) :: running (t.add (ofRegion r)) rest

@[simp] theorem add_zero (t : Tally) : t.add zero = t := rfl

@[simp] theorem zero_add (t : Tally) : zero.add t = t := by simp [add, zero]

theorem add_assoc (s t u : Tally) : (s.add t).add u = s.add (t.add u) := by
  simp [add, Nat.add_assoc]

theorem add_comm (s t : Tally) : s.add t = t.add s := by simp [add, Nat.add_comm]

end Tally

end CodeFolding
