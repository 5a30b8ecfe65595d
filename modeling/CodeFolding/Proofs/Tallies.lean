import CodeFolding.Proofs.RegionList
import CodeFolding.Survey
import Mathlib.Data.List.Forall2

/-!
Counts over files.

What files count together is the sum of what each of them counts, and what a file counts the sum of
what its regions count. So the order of files and regions does not matter, and two lists of files
count together what each of them counts. A region counts once among all and once in the counter of
its kind. The import statements are added up over import blocks; a file knows those of its first
block only, but the regions of a text have no second one.
-/

set_option autoImplicit false

namespace CodeFolding

namespace Tally

/-- Counting on from a tally adds the count from nothing. -/
theorem foldl_add {α : Type} (count : α → Tally) (t : Tally) (xs : List α) :
    xs.foldl (fun t x => t.add (count x)) t =
      t.add (xs.foldl (fun t x => t.add (count x)) zero) := by
  induction xs generalizing t with
  | nil => rfl
  | cons x rest ih =>
    rw [List.foldl_cons, List.foldl_cons, ih, ih (zero.add (count x)), zero_add, add_assoc]

theorem add_right_comm (s t u : Tally) : (s.add t).add u = (s.add u).add t := by
  rw [add_assoc, add_comm t u, ← add_assoc]

theorem foldl_perm {α : Type} (count : α → Tally) (t : Tally) {xs ys : List α} (h : xs.Perm ys) :
    xs.foldl (fun t x => t.add (count x)) t = ys.foldl (fun t x => t.add (count x)) t :=
  h.foldl_eq' (fun x _ y _ t => add_right_comm t (count x) (count y)) t

/-- The counter of a kind. -/
def counter (t : Tally) : Kind → Nat
  | .fn => t.fn
  | .struct => t.struct
  | .impl => t.impl
  | .enum => t.enum
  | .trait => t.trait
  | .mod => t.mod
  | .imports => t.importBlocks

@[simp] theorem counter_add (s t : Tally) (k : Kind) :
    (s.add t).counter k = s.counter k + t.counter k := by
  cases k <;> rfl

@[simp] theorem counter_zero (k : Kind) : zero.counter k = 0 := by cases k <;> rfl

theorem counter_ofRegion (r : Region) (k : Kind) :
    (ofRegion r).counter k = if r.kind = k then 1 else 0 := by
  have hkind : (ofRegion r).counter k = (ofKind r.kind).counter k := by cases k <;> rfl
  rw [hkind]
  cases r.kind <;> cases k <;> rfl

/-- All regions are those of each kind together. -/
def Balanced (t : Tally) : Prop :=
  t.regions = t.fn + t.struct + t.impl + t.enum + t.trait + t.mod + t.importBlocks

theorem Balanced.add {s t : Tally} (hs : s.Balanced) (ht : t.Balanced) : (s.add t).Balanced := by
  simp only [Balanced, Tally.add] at *
  omega

theorem balanced_ofRegion (r : Region) : (ofRegion r).Balanced := by
  rw [Balanced, ofRegion]
  cases r.kind <;> rfl

/-! ## Counts of regions -/

section Regions

variable {regions : List Region}

theorem ofRegions_cons (r : Region) (regions : List Region) :
    ofRegions (r :: regions) = (ofRegion r).add (ofRegions regions) := by
  rw [ofRegions, List.foldl_cons, foldl_add, zero_add, ofRegions]

theorem ofRegions_perm {xs ys : List Region} (h : xs.Perm ys) : ofRegions xs = ofRegions ys :=
  foldl_perm ofRegion zero h

theorem counter_ofRegions (regions : List Region) (k : Kind) :
    (ofRegions regions).counter k = regions.countP (·.kind = k) := by
  induction regions with
  | nil => exact counter_zero k
  | cons r rest ih =>
    rw [ofRegions_cons, counter_add, counter_ofRegion, ih, List.countP_cons, Nat.add_comm]
    simp only [decide_eq_true_eq]

theorem balanced_ofRegions (regions : List Region) : (ofRegions regions).Balanced := by
  induction regions with
  | nil => rfl
  | cons r rest ih =>
    rw [ofRegions_cons]
    exact (balanced_ofRegion r).add ih

theorem importStatements_ofRegions_cons (r : Region) (regions : List Region) :
    (ofRegions (r :: regions)).importStatements =
      (if r.isImports then r.statements.getD 0 else 0) + (ofRegions regions).importStatements := by
  rw [ofRegions_cons]
  rfl

/-- The first import block counts for all if there is no second one. -/
theorem importStatements_ofRegions (h : regions.countP Region.isImports ≤ 1) :
    (ofRegions regions).importStatements =
      ((regions.find? Region.isImports).bind (·.statements)).getD 0 := by
  induction regions with
  | nil => rfl
  | cons r rest ih =>
    rw [importStatements_ofRegions_cons]
    cases hr : r.isImports with
    | false =>
      rw [List.countP_cons_of_neg (by simp [hr])] at h
      rw [ih h, List.find?_cons_of_neg (by simp [hr])]
      exact Nat.zero_add _
    | true =>
      rw [List.countP_cons_of_pos hr] at h
      have hnone : rest.countP Region.isImports = 0 := by omega
      have hrest : rest.find? Region.isImports = none :=
        List.find?_eq_none.2 (List.countP_eq_zero.1 hnone)
      rw [ih (by omega), hrest, List.find?_cons_of_pos hr]
      rfl

end Regions

/-! ## Counts of files -/

theorem ofFiles_cons (f : FileFolds) (files : List FileFolds) :
    ofFiles (f :: files) = f.tally.add (ofFiles files) := by
  rw [ofFiles, List.foldl_cons, foldl_add, zero_add, ofFiles]

theorem ofFiles_append (files more : List FileFolds) :
    ofFiles (files ++ more) = (ofFiles files).add (ofFiles more) := by
  rw [ofFiles, List.foldl_append, foldl_add, ofFiles, ofFiles]

theorem ofFiles_perm {files files' : List FileFolds} (h : files.Perm files') :
    ofFiles files = ofFiles files' :=
  foldl_perm FileFolds.tally zero h

theorem files_ofFiles (files : List FileFolds) : (ofFiles files).files = files.length := by
  induction files with
  | nil => rfl
  | cons f rest ih =>
    rw [ofFiles_cons, List.length_cons, ← ih]
    exact Nat.add_comm 1 _

theorem unreadable_ofFiles (files : List FileFolds) :
    (ofFiles files).unreadable = files.countP fun f => !f.readable := by
  induction files with
  | nil => rfl
  | cons f rest ih =>
    rw [ofFiles_cons, List.countP_cons, ← ih, Nat.add_comm]
    cases hreadable : f.readable <;> simp [add, FileFolds.tally, hreadable]

theorem counter_tally (f : FileFolds) (k : Kind) :
    f.tally.counter k = f.regions.countP (·.kind = k) := by
  rw [← counter_ofRegions]
  cases k <;> rfl

theorem counter_ofFiles (files : List FileFolds) (k : Kind) :
    (ofFiles files).counter k = (files.flatMap (·.regions)).countP (·.kind = k) := by
  induction files with
  | nil => exact counter_zero k
  | cons f rest ih =>
    rw [ofFiles_cons, counter_add, counter_tally, ih, List.flatMap_cons, List.countP_append]

theorem balanced_ofFiles (files : List FileFolds) : (ofFiles files).Balanced := by
  induction files with
  | nil => rfl
  | cons f rest ih =>
    have hfirst : f.tally.Balanced := balanced_ofRegions f.regions
    rw [ofFiles_cons]
    exact hfirst.add ih

end Tally

/-- One of the regions of a text is an import block at most. -/
theorem countP_isImports_identify (policy : Policy) (source : List Char) :
    (identify policy source).countP Region.isImports ≤ 1 := by
  have hblocks : (blockRegions policy (importSpans (rowsOf source)) (rowsOf source)).countP
      Region.isImports = 0 :=
    List.countP_eq_zero.2 fun r hr => by simp [(isBlock_of_mem_blockRegions hr).1]
  rw [(identify_perm policy source).countP_eq, List.countP_append, hblocks, Nat.add_zero]
  refine Nat.le_trans List.countP_le_length ?_
  cases importRegion? (importSpans (rowsOf source)) policy.imports <;> simp

namespace FileFolds

/-- A file with the regions of another one in some order, and all else as it has it. -/
def Reorders (f' f : FileFolds) : Prop := ∃ regions, regions.Perm f.regions ∧ f' = { f with regions }

/-- The regions of a file are those of a text. -/
def Identified (f : FileFolds) : Prop := ∃ policy source, f.regions = identify policy source

theorem Reorders.tally_eq {f f' : FileFolds} (h : f'.Reorders f) : f'.tally = f.tally := by
  obtain ⟨regions, hperm, rfl⟩ := h
  simp only [tally, Tally.ofRegions_perm hperm]

theorem Identified.importStatements {f : FileFolds} (h : f.Identified) :
    f.tally.importStatements = f.importCount := by
  obtain ⟨policy, source, hregions⟩ := h
  refine Tally.importStatements_ofRegions ?_
  rw [hregions]
  exact countP_isImports_identify policy source

end FileFolds

namespace Tally

theorem ofFiles_reordered {files files' : List FileFolds}
    (h : List.Forall₂ FileFolds.Reorders files' files) : ofFiles files' = ofFiles files := by
  induction h with
  | nil => rfl
  | cons hfirst _ ih => rw [ofFiles_cons, ofFiles_cons, hfirst.tally_eq, ih]

theorem importStatements_ofFiles {files : List FileFolds} (h : ∀ f ∈ files, f.Identified) :
    (ofFiles files).importStatements = (files.map (·.importCount)).sum := by
  induction files with
  | nil => rfl
  | cons f rest ih =>
    obtain ⟨hfirst, hrest⟩ := List.forall_mem_cons.1 h
    rw [ofFiles_cons, List.map_cons, List.sum_cons, ← ih hrest, ← hfirst.importStatements]
    rfl

end Tally

end CodeFolding
