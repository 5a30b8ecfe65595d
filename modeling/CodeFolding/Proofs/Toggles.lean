import Mathlib.Algebra.Group.Nat.Even
import CodeFolding.Proofs.RegionList
import CodeFolding.Scan

/-!
Toggling regions by the lines they start on.

A toggle flips the first region that starts on its line, and no toggle moves a region. What toggles
do to a region is therefore told by how often its line is among theirs, whatever their order. In the
regions of a text each one is the first on its line, so each can be toggled alone, and the regions
under one policy are those under another with some of them toggled.
-/

set_option autoImplicit false

namespace CodeFolding

namespace Region

/-- The index of the first region that starts on a line. -/
def firstOn (regions : List Region) (line : Nat) : Nat := regions.findIdx (·.first = line)

section Toggled

variable {regions : List Region}

theorem firstOn_eq_idxOf (regions : List Region) (line : Nat) :
    firstOn regions line = (regions.map (·.first)).idxOf line := by
  rw [List.idxOf, List.findIdx_map]
  rfl

@[simp] theorem first_toggle (r : Region) : r.toggle.first = r.first := rfl

@[simp] theorem map_first_toggleAt (line : Nat) (regions : List Region) :
    (toggleAt line regions).1.map (·.first) = regions.map (·.first) := by
  induction regions with
  | nil => rfl
  | cons r rest ih =>
    by_cases hr : r.first = line
    · simp [toggleAt, hr]
    · simp [toggleAt, hr, ih]

@[simp] theorem firstOn_toggleAt (line : Nat) (regions : List Region) (l : Nat) :
    firstOn (toggleAt line regions).1 l = firstOn regions l := by
  rw [firstOn_eq_idxOf, map_first_toggleAt, ← firstOn_eq_idxOf]

theorem firstOn_cons (r : Region) (regions : List Region) (line : Nat) :
    firstOn (r :: regions) line = if r.first = line then 0 else firstOn regions line + 1 := by
  rw [firstOn, List.findIdx_cons, Bool.cond_decide]
  rfl

theorem toggleAt_fst (line : Nat) (regions : List Region) :
    (toggleAt line regions).1 = regions.modify (firstOn regions line) toggle := by
  induction regions with
  | nil => rfl
  | cons r rest ih =>
    by_cases hr : r.first = line
    · simp [toggleAt, firstOn_cons, hr]
    · simp [toggleAt, firstOn_cons, hr, ih]

theorem toggleAt_snd (line : Nat) (regions : List Region) :
    (toggleAt line regions).2 = decide (∃ r ∈ regions, r.first = line) := by
  induction regions with
  | nil => rfl
  | cons r rest ih =>
    by_cases hr : r.first = line
    · simp [toggleAt, hr]
    · simp [toggleAt, hr, ih]

/-- The region that a toggle flips starts on its line. -/
theorem firstOn_eq_iff {line i : Nat} {r : Region} (h : regions[i]? = some r) :
    firstOn regions line = i ↔ r.first = line ∧ firstOn regions r.first = i := by
  obtain ⟨hi, rfl⟩ := List.getElem?_eq_some_iff.1 h
  constructor
  · intro hfirst
    have hline := ((List.findIdx_eq hi).1 hfirst).1
    have heq : regions[i].first = line := of_decide_eq_true hline
    exact ⟨heq, by rw [heq, hfirst]⟩
  · intro hgiven
    obtain ⟨rfl, hfirst⟩ := hgiven
    exact hfirst

theorem getElem?_toggleAt {i : Nat} {r : Region} (h : regions[i]? = some r) (line : Nat) :
    (toggleAt line regions).1[i]? =
      some (if r.first = line ∧ firstOn regions r.first = i then r.toggle else r) := by
  rw [toggleAt_fst, List.getElem?_modify, h]
  exact congrArg some (if_congr (firstOn_eq_iff h) rfl rfl)

/-- Toggles at some lines flip the first region on each line that is an odd number of times among
them. -/
theorem toggleAll_fst (regions : List Region) (lines : List Nat) :
    (toggleAll regions lines).1 = regions.mapIdx fun i r =>
      if firstOn regions r.first = i ∧ Odd (lines.count r.first) then r.toggle else r := by
  refine List.ext_getElem? fun i => ?_
  rw [List.getElem?_mapIdx]
  induction lines generalizing regions with
  | nil => simp [toggleAll]
  | cons line rest ih =>
    rw [toggleAll, ih]
    cases hr : regions[i]? with
    | none =>
      rw [toggleAt_fst, List.getElem?_modify, hr]
      rfl
    | some r =>
      rw [getElem?_toggleAt hr, Option.map_some, Option.map_some, Option.some.injEq]
      simp only [firstOn_toggleAt, List.count_cons]
      by_cases hfirst : firstOn regions r.first = i
      · by_cases hline : r.first = line
        · subst hline
          by_cases hodd : Odd (rest.count r.first) <;> simp [hfirst, hodd, Nat.odd_add_one]
        · simp [hfirst, hline, Ne.symm hline]
      · simp [hfirst]

theorem toggleAll_snd (regions : List Region) (lines : List Nat) :
    (toggleAll regions lines).2 = lines.map fun l => decide (∃ r ∈ regions, r.first = l) := by
  induction lines generalizing regions with
  | nil => rfl
  | cons line rest ih =>
    have hsame : ∀ l, (∃ r ∈ (toggleAt line regions).1, r.first = l) ↔
        ∃ r ∈ regions, r.first = l := by
      intro l
      rw [← List.mem_map, map_first_toggleAt, List.mem_map]
    rw [toggleAll, List.map_cons, ih, toggleAt_snd]
    simp only [hsame]

end Toggled

theorem toggleAll_perm (regions : List Region) {lines lines' : List Nat} (h : lines'.Perm lines) :
    (toggleAll regions lines').1 = (toggleAll regions lines).1 := by
  rw [toggleAll_fst, toggleAll_fst]
  simp only [h.count_eq]

/-- The order of toggles does not matter. Of the regions that start on a line they flip the first,
if the line is an odd number of times among theirs, and change nothing else. Each toggle says
whether a region starts on its line. -/
theorem toggles_by_parity (regions : List Region) (lines : List Nat) :
    (∀ lines' : List Nat, lines'.Perm lines →
      (toggleAll regions lines').1 = (toggleAll regions lines).1) ∧
    ((toggleAll regions lines).1 = regions.mapIdx fun i r =>
      if firstOn regions r.first = i ∧ Odd (lines.count r.first) then { r with folded := !r.folded }
      else r) ∧
    (toggleAll regions lines).2 = lines.map fun l => decide (∃ r ∈ regions, r.first = l) :=
  ⟨fun _ hperm => toggleAll_perm regions hperm, toggleAll_fst regions lines,
    toggleAll_snd regions lines⟩

/-- Of two blocks that start on line 3 the toggles flip the first, and line 7 has none. -/
theorem toggles_by_parity_on_shared_line :
    let regions := [ofImports [⟨1, 2⟩] true, block .fn 3 9 4 0 true, block .mod 3 5 3 1 false]
    [3, 0, 3, 7, 3].Perm [0, 3, 3, 3, 7] ∧
      (toggleAll regions [3, 0, 3, 7, 3]).1 = (toggleAll regions [0, 3, 3, 3, 7]).1 ∧
      toggleAll regions [0, 3, 3, 3, 7] =
        ([ofImports [⟨1, 2⟩] false, block .fn 3 9 4 0 false, block .mod 3 5 3 1 false],
          [true, true, true, true, false]) := by
  intro regions
  have hperm : [3, 0, 3, 7, 3].Perm [0, 3, 3, 3, 7] := by decide
  exact ⟨hperm, (toggles_by_parity regions [0, 3, 3, 3, 7]).1 _ hperm, by decide⟩

section Distinct

variable {regions : List Region} {i : Nat} {r : Region}

theorem firstOn_of_nodup (h : (regions.map (·.first)).Nodup) (hr : regions[i]? = some r) :
    firstOn regions r.first = i := by
  obtain ⟨hi, rfl⟩ := List.getElem?_eq_some_iff.1 hr
  have hstart := h.idxOf_getElem i (by rwa [List.length_map])
  rwa [List.getElem_map, ← firstOn_eq_idxOf] at hstart

theorem count_starts (h : (regions.map (·.first)).Nodup) (hr : r ∈ regions) (p : Region → Bool) :
    ((regions.filter p).map (·.first)).count r.first = if p r then 1 else 0 := by
  have hmem : r.first ∈ (regions.filter p).map (·.first) ↔ p r = true := by
    rw [List.mem_map]
    constructor
    · intro hgiven
      obtain ⟨s, hs, hstart⟩ := hgiven
      obtain ⟨hs, hp⟩ := List.mem_filter.1 hs
      rwa [← List.inj_on_of_nodup_map h hs hr hstart]
    · exact fun hp => ⟨r, List.mem_filter.2 ⟨hr, hp⟩, rfl⟩
  rw [(h.sublist (List.filter_sublist.map _)).count]
  simp only [hmem]

/-- If no two regions start on one line, a toggle reaches any of them alone. -/
theorem toggleAt_of_nodup (h : (regions.map (·.first)).Nodup) (hr : regions[i]? = some r) :
    toggleAt r.first regions = (regions.modify i toggle, true) := by
  refine Prod.ext ?_ ?_
  · rw [toggleAt_fst, firstOn_of_nodup h hr]
  · rw [toggleAt_snd]
    exact decide_eq_true ⟨r, List.mem_of_getElem? hr, rfl⟩

/-- Toggling once each of some regions that start on different lines. -/
theorem toggleAll_of_nodup (h : (regions.map (·.first)).Nodup) (p : Region → Bool)
    {lines : List Nat} (hlines : lines.Perm ((regions.filter p).map (·.first))) :
    toggleAll regions lines =
      (regions.map fun r => if p r then r.toggle else r, lines.map fun _ => true) := by
  refine Prod.ext ?_ ?_
  · rw [toggleAll_fst]
    refine List.ext_getElem? fun i => ?_
    rw [List.getElem?_mapIdx, List.getElem?_map]
    cases hr : regions[i]? with
    | none => rfl
    | some r =>
      have hcount := count_starts h (List.mem_of_getElem? hr) p
      rw [← hlines.count_eq] at hcount
      cases hp : p r <;> simp [hcount, hp, firstOn_of_nodup h hr]
  · rw [toggleAll_snd]
    refine List.map_congr_left fun l hl => decide_eq_true ?_
    obtain ⟨r, hr, hstart⟩ := List.mem_map.1 (hlines.mem_iff.1 hl)
    exact ⟨r, (List.mem_filter.1 hr).1, hstart⟩

end Distinct

/-- A region with its fold as a policy says. -/
def refold (q : Policy) (r : Region) : Region := { r with folded := q.folds r.kind }

theorem refold_block (q : Policy) (kind : Kind) (first last brace level : Nat) (folded : Bool) :
    (block kind first last brace level folded).refold q =
      block kind first last brace level (q.folds kind) := by simp only [refold, block]

theorem refold_refold (p q : Policy) (r : Region) : (r.refold p).refold q = r.refold q := rfl

theorem refold_eq_self {q : Policy} {r : Region} (h : r.folded = q.folds r.kind) :
    r.refold q = r := by rw [refold, ← h]

theorem refold_eq_ite {p : Policy} {r : Region} (h : r.folded = p.folds r.kind) (q : Policy) :
    r.refold q = if p.folds r.kind != q.folds r.kind then r.toggle else r := by
  rw [← h]
  cases hq : q.folds r.kind <;> cases hr : r.folded
  · exact refold_eq_self (by rw [hq, hr])
  · simp [refold, toggle, hq, hr]
  · simp [refold, toggle, hq, hr]
  · exact refold_eq_self (by rw [hq, hr])

end Region

section Policies

variable {p q : Policy} {source : List Char} {r : Region}

theorem folded_of_mem_identify (h : r ∈ identify p source) : r.folded = p.folds r.kind := by
  rcases mem_identify.1 h with ⟨-, rfl⟩ | hblock
  · rfl
  · obtain ⟨c, k, kind, o, b, e, -, rfl⟩ := (mem_blockRegions r).1 hblock
    rfl

theorem refold_mem_identify (q : Policy) (h : r ∈ identify p source) :
    r.refold q ∈ identify q source := by
  rcases mem_identify.1 h with ⟨hne, rfl⟩ | hblock
  · exact mem_identify.2 (.inl ⟨hne, rfl⟩)
  · obtain ⟨c, k, kind, o, b, e, henc, rfl⟩ := (mem_blockRegions r).1 hblock
    rw [Region.refold_block]
    exact mem_identify.2 (.inr ((mem_blockRegions _).2 ⟨c, k, kind, o, b, e, henc, rfl⟩))

/-- The policy sets the folds and nothing else. -/
theorem identify_eq_refold (p q : Policy) (source : List Char) :
    identify q source = (identify p source).map (·.refold q) := by
  have hstarts : (((identify p source).map (·.refold q)).map (·.first)).Nodup := by
    rw [List.map_map]
    exact nodup_first_identify
  have hperm : (identify q source).Perm ((identify p source).map (·.refold q)) := by
    rw [List.perm_ext_iff_of_nodup (.of_map _ nodup_first_identify) (.of_map _ hstarts)]
    intro r
    rw [List.mem_map]
    constructor
    · intro hr
      refine ⟨r.refold p, refold_mem_identify p hr, ?_⟩
      rw [Region.refold_refold, Region.refold_eq_self (folded_of_mem_identify hr)]
    · intro hgiven
      obtain ⟨s, hs, rfl⟩ := hgiven
      exact refold_mem_identify q hs
  exact Region.eq_of_perm hperm (identify_pairwise q source)
    (List.pairwise_map.2 (identify_pairwise p source))

end Policies

/-- The regions of a text under one policy are those under another, each with its fold set anew.
They are had by one toggle, in any order, on the line of each region that the two policies treat
differently, and a toggle on a region's line reaches this region alone. -/
theorem identify_by_toggles (p q : Policy) (source : List Char) :
    let regions := identify p source
    let differing := regions.filter fun r => p.folds r.kind != q.folds r.kind
    (∀ lines : List Nat, lines.Perm (differing.map (·.first)) →
      Region.toggleAll regions lines = (identify q source, lines.map fun _ => true)) ∧
    (identify q source = regions.map fun r => { r with folded := q.folds r.kind }) ∧
    ∀ (i : Nat) (r : Region), regions[i]? = some r → Region.toggleAt r.first regions =
      (regions.modify i fun s => { s with folded := !s.folded }, true) := by
  intro regions differing
  refine ⟨fun lines hlines => ?_, identify_eq_refold p q source,
    fun i r => Region.toggleAt_of_nodup nodup_first_identify⟩
  rw [Region.toggleAll_of_nodup nodup_first_identify _ hlines, identify_eq_refold p q source]
  have hfolds : (regions.map fun r => if p.folds r.kind != q.folds r.kind then r.toggle else r) =
      regions.map (·.refold q) :=
    List.map_congr_left fun r hr => (Region.refold_eq_ite (folded_of_mem_identify hr) q).symm
  rw [hfolds]

theorem identify_by_toggles_in_impl :
    let source := "use a;\nimpl A \x7b\n  fn f(\n  ) \x7b\n  \x7d\n\x7d\n".toList
    let found :=
      [Region.ofImports [⟨1, 1⟩] true, .block .impl 2 6 2 0 false, .block .fn 3 5 4 1 true]
    identify .standard source = found ∧
      [3, 0].Perm ((found.filter fun r =>
        Policy.standard.folds r.kind != Policy.nothing.folds r.kind).map (·.first)) ∧
      Region.toggleAll found [3, 0] = (identify .nothing source, [true, true]) := by
  intro source found
  have hspans : importSpans (rowsOf source) = [⟨1, 1⟩] := by decide +kernel
  have hblocks : blockRegions .standard [⟨1, 1⟩] (rowsOf source) =
      [.block .fn 3 5 4 1 true, .block .impl 2 6 2 0 false] := by decide +kernel
  have hsorted := identify_perm .standard source
  rw [hspans, hblocks] at hsorted
  have hfound : identify .standard source = found :=
    Region.eq_of_perm (hsorted.trans (by decide)) (identify_pairwise .standard source) (by decide)
  have hperm : [3, 0].Perm ((found.filter fun r =>
      Policy.standard.folds r.kind != Policy.nothing.folds r.kind).map (·.first)) := by decide
  refine ⟨hfound, hperm, ?_⟩
  have hrun := (identify_by_toggles .standard .nothing source).1 [3, 0] (by rwa [hfound])
  rwa [hfound] at hrun

/-- The order of the toggles does not show in a view. -/
theorem Scan.view_perm (style : Style) (s : Settings) (d : Disk) (path : Path)
    {toggles toggles' : List Nat} (h : toggles'.Perm toggles) :
    view style s d path toggles' = view style s d path toggles := by
  have htext : textView style s path toggles' = textView style s path toggles := by
    funext text
    rw [textView, textView, Region.toggleAll_perm _ h]
  rw [view, view, htext]

end CodeFolding
