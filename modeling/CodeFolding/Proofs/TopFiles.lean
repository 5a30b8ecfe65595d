import CodeFolding.Report
import Mathlib.Data.List.Pairwise

/-!
The files with the most regions.

A file is told from an equal one by its place. In a stable sort files of equal count stay in their
order, so the files with regions are ranked by count first and place second, with no ties left, and
the top files are the first five of this ranking: each of them is ahead of all that are left out.
-/

set_option autoImplicit false

namespace CodeFolding

section Stable

variable {α : Type} (key : α → Nat)

theorem largestFirst_trans (a b c : α) (h : decide (key b ≤ key a) = true)
    (h' : decide (key c ≤ key b) = true) : decide (key c ≤ key a) = true := by
  rw [decide_eq_true_eq] at *
  omega

theorem largestFirst_total (a b : α) :
    (decide (key b ≤ key a) || decide (key a ≤ key b)) = true := by
  rw [Bool.or_eq_true, decide_eq_true_eq, decide_eq_true_eq]
  omega

/-- Sorting by a key, the largest first, leaves items with the same key in their order. -/
theorem filter_mergeSort_key (k : Nat) (xs : List α) :
    (xs.mergeSort fun a b => key b ≤ key a).filter (key · = k) = xs.filter (key · = k) := by
  have hkey : ∀ a ∈ xs.filter (key · = k), key a = k := by simp
  have hsame : (xs.filter (key · = k)).Pairwise fun a b => decide (key b ≤ key a) = true :=
    List.pairwise_of_forall_mem_list fun a ha b hb =>
      decide_eq_true (Nat.le_of_eq ((hkey b hb).trans (hkey a ha).symm))
  have hsub := (List.sublist_mergeSort (largestFirst_trans key) (largestFirst_total key) hsame
    List.filter_sublist).filter (key · = k)
  rw [List.filter_eq_self.2 fun a ha => decide_eq_true (hkey a ha)] at hsub
  exact (hsub.eq_of_length ((List.mergeSort_perm xs _).filter _).length_eq.symm).symm

end Stable

namespace Report

/-- How many regions a file has, taken with its place. -/
def regionCount (a : FileFolds × Nat) : Nat := a.1.regions.length

/-- Of two files with their places, the one with more regions, or else the earlier one. -/
def Ahead (a b : FileFolds × Nat) : Prop :=
  regionCount b < regionCount a ∨ regionCount a = regionCount b ∧ a.2 < b.2

theorem Ahead.ne {a b : FileFolds × Nat} (h : Ahead a b) : a ≠ b := by
  rintro rfl
  rcases h with hcount | ⟨-, hplace⟩
  · exact Nat.lt_irrefl _ hcount
  · exact Nat.lt_irrefl _ hplace

/-- The files with regions and their places. -/
def placed (files : List FileFolds) : List (FileFolds × Nat) :=
  files.zipIdx.filter fun a => !a.1.regions.isEmpty

/-- They are ranked as the top files are. -/
def ranked (files : List FileFolds) : List (FileFolds × Nat) :=
  (placed files).mergeSort fun a b => regionCount b ≤ regionCount a

variable {files : List FileFolds} {a : FileFolds × Nat}

theorem map_fst_placed (files : List FileFolds) :
    (placed files).map Prod.fst = files.filter fun f => !f.regions.isEmpty := by
  have hplaces : files.zipIdx.map Prod.fst = files := List.zipIdx_map_fst 0 files
  rw [← congrArg (List.filter fun f => !f.regions.isEmpty) hplaces, List.filter_map]
  rfl

theorem placed_pairwise (files : List FileFolds) :
    (placed files).Pairwise fun a b => a.2 < b.2 := by
  refine List.Pairwise.filter _ (List.pairwise_map.1 ?_)
  rw [List.zipIdx_map_snd]
  exact List.pairwise_lt_range'

theorem mem_ranked : a ∈ ranked files ↔ a ∈ files.zipIdx ∧ a.1.regions ≠ [] := by
  rw [ranked, List.mem_mergeSort, placed, List.mem_filter]
  simp

theorem map_fst_ranked (files : List FileFolds) : (ranked files).map Prod.fst =
    (files.filter fun f => !f.regions.isEmpty).mergeSort
      fun a b => b.regions.length ≤ a.regions.length := by
  rw [← map_fst_placed]
  exact List.map_mergeSort fun _ _ _ _ => rfl

theorem ranked_pairwise (files : List FileFolds) : (ranked files).Pairwise Ahead := by
  rw [List.pairwise_iff_forall_sublist]
  intro a b hab
  have hcount : regionCount b ≤ regionCount a := of_decide_eq_true <|
    List.pairwise_iff_forall_sublist.1
      (List.pairwise_mergeSort (largestFirst_trans regionCount) (largestFirst_total regionCount) _)
      hab
  by_cases heq : regionCount a = regionCount b
  · -- files of this count have kept their places
    have hsame := hab.filter (regionCount · = regionCount b)
    rw [ranked, filter_mergeSort_key] at hsame
    simp only [heq, decide_true, List.filter_cons_of_pos, List.filter_nil] at hsame
    exact .inr ⟨heq, List.pairwise_iff_forall_sublist.1 (placed_pairwise files)
      (hsame.trans List.filter_sublist)⟩
  · exact .inl (by omega)

theorem length_ranked (files : List FileFolds) :
    (ranked files).length = files.countP fun f => !f.regions.isEmpty := by
  rw [List.countP_eq_length_filter, ← map_fst_placed, List.length_map]
  exact List.length_mergeSort _

theorem topFiles_eq_take (files : List FileFolds) :
    topFiles files = ((ranked files).take 5).map Prod.fst := by
  rw [List.map_take, map_fst_ranked, topFiles]

theorem count_topFiles_le (files : List FileFolds) (f : FileFolds) :
    (topFiles files).count f ≤ files.count f := by
  rw [topFiles]
  refine Nat.le_trans ((List.take_sublist 5 _).count_le f) ?_
  rw [(List.mergeSort_perm _ _).count_eq]
  exact List.filter_sublist.count_le f

/-- There are five top files, or as many as have regions. Each has regions, and none occurs more
often among them than in the list. Taken with their places, each of them is ahead of those behind
it and of every file with regions that is left out. -/
theorem topFiles_ahead (files : List FileFolds) :
    (topFiles files).length = min 5 (files.countP fun f => !f.regions.isEmpty) ∧
    (∀ f, (topFiles files).count f ≤ files.count f) ∧
    ∃ chosen : List (FileFolds × Nat), chosen.map Prod.fst = topFiles files ∧ chosen.Nodup ∧
      (∀ a ∈ chosen, a ∈ files.zipIdx ∧ a.1.regions ≠ []) ∧
      chosen.Pairwise Ahead ∧
      ∀ b ∈ files.zipIdx, b.1.regions ≠ [] → b ∉ chosen → ∀ a ∈ chosen, Ahead a b := by
  have hranked := ranked_pairwise files
  rw [← List.take_append_drop 5 (ranked files), List.pairwise_append] at hranked
  obtain ⟨hchosen, -, hahead⟩ := hranked
  refine ⟨?_, count_topFiles_le files, (ranked files).take 5, (topFiles_eq_take files).symm,
    hchosen.imp Ahead.ne, fun a ha => mem_ranked.1 (List.mem_of_mem_take ha), hchosen,
    fun b hb hregions hout a ha => hahead a ha b ?_⟩
  · rw [topFiles_eq_take, List.length_map, List.length_take, length_ranked]
  · have hmem : b ∈ (ranked files).take 5 ++ (ranked files).drop 5 := by
      rw [List.take_append_drop]
      exact mem_ranked.2 ⟨hb, hregions⟩
    exact (List.mem_append.1 hmem).resolve_left hout

end Report

end CodeFolding
