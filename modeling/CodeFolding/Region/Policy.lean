import CodeFolding.Region

/-!
Policies: which kinds of region are folded at first.
-/

set_option autoImplicit false

namespace CodeFolding

structure Policy where
  fn : Bool
  struct : Bool
  enum : Bool
  impl : Bool
  trait : Bool
  mod : Bool
  imports : Bool
  deriving DecidableEq, Repr

namespace Policy

/-- Bodies and imports are folded; implementations, traits and modules are open. -/
def standard : Policy := ⟨true, true, true, false, false, false, true⟩

def everything : Policy := ⟨true, true, true, true, true, true, true⟩

def nothing : Policy := ⟨false, false, false, false, false, false, false⟩

/-- Whether a kind is folded at first. -/
def folds (p : Policy) : Kind → Bool
  | .fn => p.fn
  | .struct => p.struct
  | .enum => p.enum
  | .impl => p.impl
  | .trait => p.trait
  | .mod => p.mod
  | .imports => p.imports

@[simp] theorem folds_everything (k : Kind) : everything.folds k = true := by cases k <;> rfl

@[simp] theorem folds_nothing (k : Kind) : nothing.folds k = false := by cases k <;> rfl

/-- The policy that folds the kinds of a set. -/
def ofSet (s : Kind → Bool) : Policy :=
  ⟨s .fn, s .struct, s .enum, s .impl, s .trait, s .mod, s .imports⟩

@[simp] theorem folds_ofSet (s : Kind → Bool) (k : Kind) : (ofSet s).folds k = s k := by
  cases k <;> rfl

end Policy

end CodeFolding
