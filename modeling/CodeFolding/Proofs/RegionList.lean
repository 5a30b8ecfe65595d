import Mathlib.Data.List.Nodup
import CodeFolding.Proofs.Statements
import CodeFolding.Region.Identify

/-!
The list of regions of a text.

The import block and the blocks are put in the order of their first lines. No two of them start on
the same line, since a line has one declaration and a declaration has one body, so the order is
strict and the import block, which starts on line 0, is the head of the list.
-/

set_option autoImplicit false

namespace CodeFolding

namespace Region

/-- The form of the import block. -/
structure IsHeader (r : Region) : Prop where
  first : r.first = 0
  last : r.last = 0
  brace : r.brace = 0
  level : r.level = -1
  statements : r.statements = some r.spans.length
  nonempty : 1 ≤ r.spans.length

/-- A block within the lines of a text, with its keyword and its opening brace on lines of no
import. -/
structure IsBlock (n : Nat) (spans : List Span) (r : Region) : Prop where
  start : 1 ≤ r.first
  opens : r.first ≤ r.brace
  closes : r.brace < r.last
  inside : r.last ≤ n
  free_start : ∀ s ∈ spans, s.contains r.first = false
  free_brace : ∀ s ∈ spans, s.contains r.brace = false

theorem precedes_iff (a b : Region) :
    a.precedes b = true ↔ a.first < b.first ∨ (a.first = b.first ∧ b.last ≤ a.last) := by
  simp [precedes]

theorem precedes_trans {a b c : Region} (h : a.precedes b = true) (h' : b.precedes c = true) :
    a.precedes c = true := by
  rw [precedes_iff] at *
  omega

theorem precedes_total (a b : Region) : (a.precedes b || b.precedes a) = true := by
  rw [Bool.or_eq_true, precedes_iff, precedes_iff]
  omega

/-- The order of first lines determines a list. -/
theorem eq_of_perm {xs ys : List Region} (h : xs.Perm ys)
    (hx : xs.Pairwise fun a b => a.first < b.first)
    (hy : ys.Pairwise fun a b => a.first < b.first) : xs = ys :=
  h.eq_of_pairwise (fun _ _ _ _ hab hba => absurd hab (Nat.lt_asymm hba)) hx hy

end Region

section Blocks

variable {policy : Policy} {rows : List Row} {spans : List Span}

theorem Encloses.lines {k o c b e : Nat} {kind : Kind} (h : Encloses rows spans k kind o c b e) :
    1 ≤ k ∧ k ≤ b ∧ b < e ∧ e ≤ rows.length := by
  have hk : 1 ≤ k := by
    obtain ⟨row, _, hrow, _⟩ := h.anchors.candidate
    cases k with
    | zero => simp [Row.at?] at hrow
    | succ k => omega
  have he : e < 1 + rows.length := line_lt_of_mem (List.mem_of_getElem? h.close)
  exact ⟨hk, h.anchors.after, h.later, by omega⟩

theorem Encloses.isBlock {k o c b e : Nat} {kind : Kind} (h : Encloses rows spans k kind o c b e)
    (level : Nat) (folded : Bool) :
    (Region.block kind k e b level folded).IsBlock rows.length spans where
  start := h.lines.1
  opens := h.lines.2.1
  closes := h.lines.2.2.1
  inside := h.lines.2.2.2
  free_start := (ownsLine_eq_false spans k).1 h.anchors.candidate.not_owned
  free_brace := (ownsLine_eq_false spans b).1 h.anchors.free

theorem kind_ne_imports {row : Row} {offset : Nat} {kind : Kind}
    (h : Declaration.find? row.text = some (offset, kind)) : kind ≠ .imports := by
  obtain ⟨k, hk, hpair⟩ := Option.map_eq_some_iff.1 h
  obtain rfl : k = kind := congrArg Prod.snd hpair
  rintro rfl
  have hmem := List.mem_of_find?_eq_some hk
  simp [Kind.declarations] at hmem

theorem Encloses.not_imports {k o c b e : Nat} {kind : Kind}
    (h : Encloses rows spans k kind o c b e) (level : Nat) (folded : Bool) :
    (Region.block kind k e b level folded).isImports = false := by
  obtain ⟨row, offset, -, -, -, hfind, -⟩ := h.anchors.candidate
  simpa [Region.isImports, Region.block] using kind_ne_imports hfind

/-- The blocks of a text start on different lines. -/
theorem nodup_first_blockRegions : ((blockRegions policy spans rows).map (·.first)).Nodup := by
  rw [List.nodup_iff_count_le_one]
  intro k
  have hcount : ((blockRegions policy spans rows).map (·.first)).count k =
      ((blockRegions policy spans rows).filter (·.first = k)).length := by
    rw [List.count_eq_countP, List.countP_map, List.countP_eq_length_filter]
    rfl
  rw [hcount]
  cases hk : (blockRegions policy spans rows).filter (·.first = k) with
  | nil => simp
  | cons r rest =>
    have hr : r ∈ (blockRegions policy spans rows).filter (·.first = k) := by simp [hk]
    obtain ⟨hmem, hfirst⟩ := List.mem_filter.1 hr
    obtain ⟨c, k', kind, o, b, e, henc, rfl⟩ := (mem_blockRegions r).1 hmem
    obtain rfl : k' = k := of_decide_eq_true hfirst
    rw [← hk, filter_blockRegions henc, List.length_singleton]

theorem isBlock_of_mem_blockRegions {r : Region} (h : r ∈ blockRegions policy spans rows) :
    r.isImports = false ∧ r.IsBlock rows.length spans := by
  obtain ⟨c, k, kind, o, b, e, henc, rfl⟩ := (mem_blockRegions r).1 h
  exact ⟨henc.not_imports _ _, henc.isBlock _ _⟩

end Blocks

section Sorted

variable {policy : Policy} {source : List Char} {r : Region}

theorem identify_perm (policy : Policy) (source : List Char) :
    (identify policy source).Perm
      ((importRegion? (importSpans (rowsOf source)) policy.imports).toList ++
        blockRegions policy (importSpans (rowsOf source)) (rowsOf source)) :=
  List.mergeSort_perm _ _

theorem mem_importRegion? {spans : List Span} {folded : Bool} :
    importRegion? spans folded = some r ↔ spans ≠ [] ∧ r = .ofImports spans folded := by
  cases spans with
  | nil => simp [importRegion?]
  | cons s rest => simp [importRegion?, eq_comm]

theorem mem_identify : r ∈ identify policy source ↔
    (importSpans (rowsOf source) ≠ [] ∧
      r = .ofImports (importSpans (rowsOf source)) policy.imports) ∨
    r ∈ blockRegions policy (importSpans (rowsOf source)) (rowsOf source) := by
  rw [(identify_perm policy source).mem_iff, List.mem_append, Option.mem_toList, mem_importRegion?]

theorem imports_of_mem_identify (h : r ∈ identify policy source) (hr : r.isImports = true) :
    importSpans (rowsOf source) ≠ [] ∧
      r = .ofImports (importSpans (rowsOf source)) policy.imports := by
  rcases mem_identify.1 h with himports | hblock
  · exact himports
  · simp [(isBlock_of_mem_blockRegions hblock).1] at hr

theorem block_of_mem_identify (h : r ∈ identify policy source) (hr : r.isImports = false) :
    r ∈ blockRegions policy (importSpans (rowsOf source)) (rowsOf source) := by
  rcases mem_identify.1 h with ⟨-, rfl⟩ | hblock
  · simp [Region.isImports, Region.ofImports] at hr
  · exact hblock

theorem isHeader_ofImports {spans : List Span} (h : spans ≠ []) (folded : Bool) :
    (Region.ofImports spans folded).IsHeader :=
  ⟨rfl, rfl, rfl, rfl, rfl, List.length_pos_iff.2 h⟩

@[simp] theorem length_rowsOf (source : List Char) :
    (rowsOf source).length = (splitLines source).length := Row.length_ofLines _ _

theorem isBlock_of_mem_identify (h : r ∈ identify policy source) (hr : r.isImports = false) :
    r.IsBlock (splitLines source).length (importSpans (rowsOf source)) := by
  have hblock := (isBlock_of_mem_blockRegions (block_of_mem_identify h hr)).2
  rwa [length_rowsOf] at hblock

theorem nodup_first_identify : ((identify policy source).map (·.first)).Nodup := by
  rw [((identify_perm policy source).map (·.first)).nodup_iff, List.map_append,
    List.nodup_append]
  refine ⟨?_, nodup_first_blockRegions, fun k hk l hl => ?_⟩
  · cases importRegion? (importSpans (rowsOf source)) policy.imports <;> simp
  · -- the import block starts above all lines
    obtain ⟨q, hq, rfl⟩ := List.mem_map.1 hk
    obtain ⟨r, hr, rfl⟩ := List.mem_map.1 hl
    obtain ⟨-, rfl⟩ := mem_importRegion?.1 (Option.mem_toList.1 hq)
    have hstart := (isBlock_of_mem_blockRegions hr).2.start
    simp only [Region.ofImports]
    omega

theorem identify_pairwise (policy : Policy) (source : List Char) :
    (identify policy source).Pairwise fun a b => a.first < b.first := by
  have hsorted : (identify policy source).Pairwise fun a b => a.precedes b = true :=
    List.pairwise_mergeSort (fun a b c => Region.precedes_trans (a := a)) Region.precedes_total _
  have hdistinct : (identify policy source).Pairwise fun a b => a.first ≠ b.first :=
    List.pairwise_map.1 nodup_first_identify
  refine (hsorted.and hdistinct).imp fun hgiven => ?_
  obtain ⟨hle, hne⟩ := hgiven
  rw [Region.precedes_iff] at hle
  omega

/-- Only the head of the list can start above all lines. -/
theorem index_of_first_zero {i : Nat} (hi : (identify policy source)[i]? = some r)
    (h : r.first = 0) : i = 0 := by
  obtain ⟨hlt, hr⟩ := List.getElem?_eq_some_iff.1 hi
  by_contra hne
  have := List.pairwise_iff_getElem.1 (identify_pairwise policy source) 0 i (by omega) hlt
    (by omega)
  rw [hr, h] at this
  omega

end Sorted

/-- For every text the regions start on increasing lines. The import block can only be the first of
them, and all others are blocks within the lines of the text and apart from the imports. -/
theorem identify_wellFormed (policy : Policy) (source : List Char) :
    let regions := identify policy source
    let n := (splitLines source).length
    regions.Pairwise (fun a b => a.first < b.first) ∧
    (∀ i r, regions[i]? = some r → r.isImports = true →
      i = 0 ∧ r.IsHeader ∧ r.spans = importSpans (rowsOf source)) ∧
    (∀ r ∈ regions, r.isImports = false → r.IsBlock n (importSpans (rowsOf source))) ∧
    ((∀ p, (openBefore (liveText (rowsOf source)) p).ncard < 2147483648) →
      ∀ r ∈ regions, r.isImports = false → 0 ≤ r.level) := by
  intro regions n
  refine ⟨identify_pairwise policy source, fun i r hi hr => ?_, fun r hr himp => ?_,
    fun hdeep r hr himp => ?_⟩
  · obtain ⟨hne, rfl⟩ := imports_of_mem_identify (List.mem_of_getElem? hi) hr
    exact ⟨index_of_first_zero hi rfl, isHeader_ofImports hne _, rfl⟩
  · have hblock := (isBlock_of_mem_blockRegions (block_of_mem_identify hr himp)).2
    rwa [length_rowsOf] at hblock
  · obtain ⟨c, k, kind, o, b, e, henc, rfl⟩ :=
      (mem_blockRegions r).1 (block_of_mem_identify hr himp)
    rw [level_block (by rw [length_stackAt]; exact hdeep o)]
    exact Int.natCast_nonneg _

theorem levels_of_nested_function :
    let source := "mod m \x7b\n  fn f() \x7b\n  \x7d\n\x7d\n".toList
    (∀ p, (openBefore (liveText (rowsOf source)) p).ncard < 2147483648) ∧
      ∀ r ∈ identify .standard source, r.isImports = false → 0 ≤ r.level := by
  intro source
  have hlength : (liveText (rowsOf source)).length < 2147483648 := by decide
  have hdeep : ∀ p, (openBefore (liveText (rowsOf source)) p).ncard < 2147483648 := fun p =>
    Nat.lt_of_le_of_lt (ncard_openBefore_le _ p) hlength
  exact ⟨hdeep, (identify_wellFormed .standard source).2.2.2 hdeep⟩

end CodeFolding
