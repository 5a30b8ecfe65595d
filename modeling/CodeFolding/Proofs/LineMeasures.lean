import CodeFolding.Proofs.HiddenLines
import CodeFolding.Proofs.IndexedRegions

/-!
The line numbers of a region against the lines that it hides.

A region counts its lines by subtraction and by adding up spans, and tells of each line whether it
hides it. For the regions of a text the counts are numbers of lines, no subtraction is cut off at
zero, and the import block hides the lines that the table of the imports marks.
-/

set_option autoImplicit false

namespace CodeFolding

variable {policy : Policy} {source : List Char} {r : Region} {l : Nat}

/-- A region hides as many lines of its text as it collapses. -/
theorem countP_hides (h : r ∈ identify policy source) :
    (List.range' 1 (splitLines source).length).countP r.hides = r.collapsedLines := by
  cases hr : r.isImports with
  | false =>
    have hblock := isBlock_of_mem_identify h hr
    have hopens := hblock.opens
    have hcloses := hblock.closes
    have hinside := hblock.inside
    rw [hides_block hr, countP_interval]
    simp only [Region.collapsedLines, hr, Bool.false_eq_true, if_false]
    omega
  | true =>
    have hcount := countP_ownsLine (importSpans_pairwise (rowsOf source)) fun s hs =>
      importSpans_within hs
    rw [length_rowsOf] at hcount
    simp [hides_imports h hr, hcount, Region.collapsedLines, hr, Region.spanLines,
      spans_of_mem_identify h hr]

theorem within_of_ownsLine (h : ownsLine (importSpans (rowsOf source)) l = true) :
    1 ≤ l ∧ l ≤ (splitLines source).length := by
  obtain ⟨s, hs, hfirst, hlast⟩ := (ownsLine_iff _ l).1 h
  have hwithin := importSpans_within hs
  rw [length_rowsOf] at hwithin
  omega

/-- A region hides no line that its text does not have. -/
theorem within_of_hides (h : r ∈ identify policy source) (hl : r.hides l = true) :
    1 ≤ l ∧ l ≤ (splitLines source).length := by
  cases hr : r.isImports with
  | false =>
    have hinside := (isBlock_of_mem_identify h hr).inside
    rw [hides_block hr, Bool.and_eq_true, decide_eq_true_eq, decide_eq_true_eq] at hl
    omega
  | true =>
    rw [hides_imports h hr] at hl
    exact within_of_ownsLine hl

theorem bodyLines_le_collapsedLines (h : r ∈ identify policy source) :
    r.bodyLines ≤ r.collapsedLines ∧ r.collapsedLines ≤ r.lineCount := by
  cases hr : r.isImports with
  | false =>
    have hopens := (isBlock_of_mem_identify h hr).opens
    simp only [Region.bodyLines, Region.collapsedLines, Region.lineCount, hr, Bool.false_eq_true,
      if_false]
    omega
  | true => simp [Region.bodyLines, Region.collapsedLines, Region.lineCount, hr]

/-- What a block collapses besides its body are the lines of its signature behind the first. -/
theorem collapsedLines_sub_bodyLines (h : r ∈ identify policy source) (hr : r.isImports = false) :
    (r.collapsedLines : Int) - r.bodyLines = (r.brace : Int) - r.first := by
  have hblock := isBlock_of_mem_identify h hr
  have hopens := hblock.opens
  have hcloses := hblock.closes
  simp only [Region.collapsedLines, Region.bodyLines, hr, Bool.false_eq_true, if_false]
  omega

/-- The counts of a region of a text agree with the lines that it hides, which are all lines of the
text. Those of the import block are the lines of the spans, and the lines that the table marks. -/
theorem lineMeasures_agree (policy : Policy) (source : List Char) :
    let n := (splitLines source).length
    let spans := importSpans (rowsOf source)
    ∃ table, Checked.lineTable n spans = .ok table ∧
      ∀ r ∈ identify policy source,
        (List.range' 1 n).countP r.hides = r.collapsedLines ∧
        (∀ l, r.hides l = true → 1 ≤ l ∧ l ≤ n) ∧
        r.bodyLines ≤ r.collapsedLines ∧ r.collapsedLines ≤ r.lineCount ∧
        (r.isImports = false →
          (r.collapsedLines : Int) - r.bodyLines = (r.brace : Int) - r.first) ∧
        (r.isImports = true →
          ∀ l, r.hides l = ownsLine spans l ∧ r.hides l = table[l]?.getD false) := by
  intro n spans
  obtain ⟨table, htable, hmarks⟩ := lineTable_importSpans (rowsOf source)
  rw [length_rowsOf] at htable
  refine ⟨table, htable, fun r hr => ?_⟩
  obtain ⟨hbody, hcollapsed⟩ := bodyLines_le_collapsedLines hr
  refine ⟨countP_hides hr, fun l => within_of_hides hr, hbody, hcollapsed,
    collapsedLines_sub_bodyLines hr, fun himports l => ?_⟩
  rw [hmarks, hides_imports hr himports, and_self]

/-- An attribute above a `use`, and a signature of three lines. -/
theorem lineMeasures_of_long_signature :
    let source := "#[a]\nuse b::\x7b\n  c\x7d;\nfn f(\n  x: u8\n) \x7b\n  x\n\x7d\n".toList
    let imports := Region.ofImports [⟨1, 3⟩] true
    let block := Region.block .fn 4 8 6 0 true
    imports ∈ identify .standard source ∧ block ∈ identify .standard source ∧
      (List.range' 1 9).countP imports.hides = 3 ∧ (List.range' 1 9).countP block.hides = 3 ∧
      (block.collapsedLines : Int) - block.bodyLines = (6 : Int) - 4 := by
  intro source imports block
  have hspans : importSpans (rowsOf source) = [⟨1, 3⟩] := by decide +kernel
  have hblocks : blockRegions .standard [⟨1, 3⟩] (rowsOf source) = [block] := by decide +kernel
  have himports : imports ∈ identify .standard source :=
    mem_identify.2 (.inl ⟨by rw [hspans]; simp, by rw [hspans]; rfl⟩)
  have hblock : block ∈ identify .standard source :=
    mem_identify.2 (.inr (by rw [hspans, hblocks]; simp))
  obtain ⟨table, -, hall⟩ := lineMeasures_agree .standard source
  exact ⟨himports, hblock, (hall imports himports).1, (hall block hblock).1,
    (hall block hblock).2.2.2.2.1 rfl⟩

end CodeFolding
