import CodeFolding.Proofs.RegionList
import CodeFolding.View

/-!
How many lines a folded region hides.

A region counts the lines it collapses from its line numbers, the view counts the shown lines that
the region hides. Both counts are numbers of lines in intervals. They agree unless an import
statement is still open in the empty line behind the last line end, which the view does not show.
-/

set_option autoImplicit false

namespace CodeFolding

/-- The regions with the fold of the `i`-th as the only one. -/
def foldOnly (i : Nat) (regions : List Region) : List Region :=
  regions.mapIdx fun j r => { r with folded := j == i }

/-- The text ends in a line end, and an import statement is still open behind it. -/
def OpenBehindEnd (source : List Char) : Prop :=
  (splitLines source).getLast? = some [] ∧
    ∃ s ∈ importSpans (rowsOf source), s.last = (splitLines source).length

instance (source : List Char) : Decidable (OpenBehindEnd source) :=
  inferInstanceAs (Decidable (_ ∧ _))

theorem isHidden_foldOnly {regions : List Region} {i : Nat} {r : Region}
    (hi : regions[i]? = some r) (l : Nat) : View.isHidden (foldOnly i regions) l = r.hides l := by
  obtain ⟨hlt, hr⟩ := List.getElem?_eq_some_iff.1 hi
  rw [Bool.eq_iff_iff, View.isHidden, List.any_eq_true]
  constructor
  · intro hgiven
    obtain ⟨q, hq, hhides⟩ := hgiven
    obtain ⟨j, hj, rfl⟩ := List.mem_mapIdx.1 hq
    simp only [Bool.and_eq_true, beq_iff_eq] at hhides
    obtain ⟨rfl, hhides⟩ := hhides
    rwa [← hr]
  · intro hhides
    refine ⟨{ r with folded := i == i }, List.mem_mapIdx.2 ⟨i, hlt, by rw [hr]⟩, ?_⟩
    rw [beq_self_eq_true, Bool.true_and]
    exact hhides

theorem hiddenFrom_eq_countP (regions : List Region) (n count : Nat) :
    View.hiddenFrom regions n count = (List.range' n count).countP (View.isHidden regions) := by
  induction count generalizing n with
  | zero => rfl
  | succ count ih =>
    rw [View.hiddenFrom, ih, List.range'_succ, List.countP_cons, Nat.add_comm]

/-- The lines from `a` on and before `b`, among `count` lines from `n` on. -/
theorem countP_interval (a b n count : Nat) :
    (List.range' n count).countP (fun l => a ≤ l && l < b) = min b (n + count) - max a n := by
  induction count generalizing n with
  | zero => simp
  | succ count ih =>
    rw [List.range'_succ, List.countP_cons, ih]
    by_cases hin : a ≤ n ∧ n < b
    · simp [hin]; omega
    · simp [hin]; omega

theorem countP_or {α : Type} (p q : α → Bool) (xs : List α)
    (h : ∀ x ∈ xs, p x = true → q x = false) :
    xs.countP (fun x => p x || q x) = xs.countP p + xs.countP q := by
  induction xs with
  | nil => rfl
  | cons x xs ih =>
    have hx := h x (by simp)
    have hrest := ih fun y hy => h y (by simp [hy])
    cases hp : p x <;> cases hq : q x <;> simp_all <;> omega

/-- Spans apart from each other have as many lines as there are lines that they own. -/
theorem countP_ownsLine {n : Nat} {spans : List Span}
    (hapart : spans.Pairwise fun s t => s.last < t.first)
    (hin : ∀ s ∈ spans, 1 ≤ s.first ∧ s.first ≤ s.last ∧ s.last ≤ n) :
    (List.range' 1 n).countP (ownsLine spans) = Span.totalLines spans := by
  induction spans with
  | nil => simp [ownsLine, Span.totalLines]
  | cons s rest ih =>
    obtain ⟨hbehind, hrest⟩ := List.pairwise_cons.1 hapart
    obtain ⟨hfirst, hle, hlast⟩ := hin s (by simp)
    have hone : (List.range' 1 n).countP s.contains = s.lineCount := by
      have hcontains : s.contains = fun l => decide (s.first ≤ l) && decide (l < s.last + 1) := by
        funext l
        simp [Span.contains]
      rw [hcontains, countP_interval, Span.lineCount]
      omega
    have hor := countP_or s.contains (ownsLine rest) (List.range' 1 n) fun l _ hs => by
      rw [ownsLine_eq_false]
      intro t ht
      have := hbehind t ht
      simp only [Span.contains, Bool.and_eq_true, decide_eq_true_eq, Bool.and_eq_false_iff,
        decide_eq_false_iff_not] at hs ⊢
      omega
    rw [Span.totalLines, ← hone, ← ih hrest fun t ht => hin t (by simp [ht]), ← hor]
    rfl

section Shown

variable {source : List Char}

theorem ofLines_get? {s : Carry} {lines : List (List Char)} {i : Nat} {row : Row}
    (h : (Row.ofLines s lines)[i]? = some row) :
    lines[i]? = some row.text ∧ row.cells = (classify row.before row.text).1 := by
  induction lines generalizing s i with
  | nil => simp [Row.ofLines] at h
  | cons line rest ih =>
    cases i with
    | zero =>
      obtain rfl := Option.some.inj h
      exact ⟨rfl, rfl⟩
    | succ i => exact ih h

theorem cells_of_empty_last {row : Row} (hlast : (splitLines source).getLast? = some [])
    (hrow : Row.at? (rowsOf source) (splitLines source).length = some row) : row.cells = [] := by
  rw [List.getLast?_eq_getElem?] at hlast
  cases hn : (splitLines source).length with
  | zero => simp [hn, Row.at?] at hrow
  | succ n =>
    rw [hn] at hrow hlast
    obtain ⟨htext, hcells⟩ := ofLines_get? hrow
    rw [Nat.add_sub_cancel, htext, Option.some.injEq] at hlast
    rw [hcells, hlast]
    rfl

theorem last_le_shownLines {policy : Policy} {r : Region} (h : r ∈ identify policy source)
    (hr : r.isImports = false) : r.last ≤ (View.shownLines source).length := by
  have hmem := block_of_mem_identify h hr
  have hinside := (isBlock_of_mem_identify h hr).inside
  rw [View.length_shownLines]
  split
  · rename_i hdrop
    obtain ⟨c, k, kind, o, b, e, henc, rfl⟩ := (mem_blockRegions _).1 hmem
    obtain ⟨row, hrow, hchar⟩ := row_of_place henc.close
    simp only [Region.block] at hinside ⊢
    -- a line that is not shown is empty, so it has no closing brace
    by_contra hlast
    obtain rfl : e = (splitLines source).length := by omega
    simp [Nesting.liveChars, cells_of_empty_last hdrop.2 hrow] at hchar
  · exact hinside

theorem FirstUse.cells_ne_nil {rows : List Row} {u : Nat} {back : List Cell}
    (h : FirstUse rows u back) : ∃ row, Row.at? rows u = some row ∧ row.cells ≠ [] := by
  obtain ⟨row, front, hrow, ⟨hsplit, huse⟩, -⟩ := h
  obtain ⟨_, _, _, _, rfl, -⟩ := huse
  exact ⟨row, hrow, by simp [hsplit]⟩

theorem OpenBehindEnd.one_lt (h : OpenBehindEnd source) : 1 < (splitLines source).length := by
  obtain ⟨hlast, s, hs, hend⟩ := h
  obtain ⟨u, hst⟩ := statement_of_mem hs
  obtain ⟨back, hfirst, -⟩ := hst.ends
  obtain ⟨row, hrow, hcells⟩ := hfirst.cells_ne_nil
  -- the `use` stands on a line that is not empty
  have hne : u ≠ (splitLines source).length := by
    rintro rfl
    exact hcells (cells_of_empty_last hlast hrow)
  have := hst.start
  have := hst.above
  have := hst.below
  omega

theorem countP_shown_ownsLine (source : List Char) :
    (List.range' 1 (View.shownLines source).length).countP (ownsLine (importSpans (rowsOf source))) +
        (if OpenBehindEnd source then 1 else 0) =
      Span.totalLines (importSpans (rowsOf source)) := by
  have hall := countP_ownsLine (n := (rowsOf source).length) (importSpans_pairwise (rowsOf source))
    fun s hs => importSpans_within hs
  have hend := ownsLine_length (rowsOf source)
  rw [length_rowsOf] at hall hend
  rw [← hall, View.length_shownLines]
  split
  · rename_i hdrop
    have hopen : OpenBehindEnd source ↔
        ownsLine (importSpans (rowsOf source)) (splitLines source).length = true := by
      rw [hend, OpenBehindEnd, and_iff_right hdrop.2]
    obtain ⟨n, hn⟩ : ∃ n, (splitLines source).length = n + 1 :=
      ⟨(splitLines source).length - 1, by omega⟩
    rw [hn] at hopen ⊢
    rw [Nat.add_sub_cancel, List.range'_1_concat, List.countP_append, List.countP_singleton,
      Nat.add_comm 1 n]
    simp only [hopen]
  · rename_i hkeep
    rw [if_neg fun hopen => hkeep ⟨hopen.one_lt, hopen.1⟩, Nat.add_zero]

theorem hidden_foldOnly {policy : Policy} {i : Nat} {r : Region}
    (hi : (identify policy source)[i]? = some r) :
    View.hidden source (foldOnly i (identify policy source)) =
      (List.range' 1 (View.shownLines source).length).countP r.hides := by
  rw [View.hidden, hiddenFrom_eq_countP]
  congr 1
  funext l
  exact isHidden_foldOnly hi l

/-- A block hides the lines between its first and its last. -/
theorem hides_block {r : Region} (hr : r.isImports = false) :
    r.hides = fun l => decide (r.first + 1 ≤ l) && decide (l < r.last) := by
  funext l
  simp [Region.hides, hr]

theorem spans_of_mem_identify {policy : Policy} {r : Region} (h : r ∈ identify policy source)
    (hr : r.isImports = true) : r.spans = importSpans (rowsOf source) := by
  obtain ⟨-, rfl⟩ := imports_of_mem_identify h hr
  rfl

/-- The import block hides the lines of the imports. -/
theorem hides_imports {policy : Policy} {r : Region} (h : r ∈ identify policy source)
    (hr : r.isImports = true) : r.hides = ownsLine (importSpans (rowsOf source)) := by
  funext l
  simp [Region.hides, hr, spans_of_mem_identify h hr, ownsLine]

theorem hidden_block {policy : Policy} {i : Nat} {r : Region}
    (hi : (identify policy source)[i]? = some r) (hr : r.isImports = false) :
    View.hidden source (foldOnly i (identify policy source)) = r.collapsedLines := by
  have hmem := List.mem_of_getElem? hi
  have hblock := isBlock_of_mem_identify hmem hr
  have hshown := last_le_shownLines hmem hr
  have hstart := hblock.start
  have hopens := hblock.opens
  have hcloses := hblock.closes
  rw [hidden_foldOnly hi, hides_block hr, countP_interval]
  simp only [Region.collapsedLines, hr, Bool.false_eq_true, if_false]
  omega

theorem hidden_imports {policy : Policy} {i : Nat} {r : Region}
    (hi : (identify policy source)[i]? = some r) (hr : r.isImports = true) :
    View.hidden source (foldOnly i (identify policy source)) +
      (if OpenBehindEnd source then 1 else 0) = r.collapsedLines := by
  have hmem := List.mem_of_getElem? hi
  rw [hidden_foldOnly hi, hides_imports hmem hr, countP_shown_ownsLine]
  simp [Region.collapsedLines, hr, Region.spanLines, spans_of_mem_identify hmem hr]

end Shown

/-- A region that is the only one folded hides as many lines as it collapses, except for the import
block of a text with a statement open behind its last line end: there it counts one line more. -/
theorem hidden_eq_collapsedLines_iff (policy : Policy) (source : List Char)
    (i : Fin (identify policy source).length) :
    let r := (identify policy source)[i]
    let hidden := View.hidden source (foldOnly i (identify policy source))
    (hidden = r.collapsedLines ↔ ¬ (r.isImports = true ∧ OpenBehindEnd source)) ∧
      (r.isImports = true ∧ OpenBehindEnd source → r.collapsedLines = hidden + 1) := by
  intro r hidden
  have hi : (identify policy source)[i.val]? = some r := List.getElem?_eq_getElem i.isLt
  cases hr : r.isImports with
  | false => simpa using hidden_block hi hr
  | true =>
    have himports := hidden_imports hi hr
    by_cases hopen : OpenBehindEnd source
    · rw [if_pos hopen] at himports
      simp only [hopen, and_self, not_true_eq_false, iff_false, true_implies]
      exact ⟨by omega, himports.symm⟩
    · rw [if_neg hopen] at himports
      simpa [hopen] using himports

/-- A `use` without an end takes in the empty line behind it, which is not shown. -/
theorem unshown_line :
    identify .standard "use a\n".toList = [.ofImports [⟨1, 2⟩] true] ∧
      (Region.ofImports [⟨1, 2⟩] true).collapsedLines = 2 ∧
      View.hidden "use a\n".toList (foldOnly 0 (identify .standard "use a\n".toList)) = 1 := by
  have hspans : importSpans (rowsOf "use a\n".toList) = [⟨1, 2⟩] := by decide
  have hblocks : blockRegions .standard [⟨1, 2⟩] (rowsOf "use a\n".toList) = [] := by decide
  have hregions : identify .standard "use a\n".toList = [.ofImports [⟨1, 2⟩] true] := by
    simp only [identify, hspans, hblocks, importRegion?, List.append_nil]
    exact List.mergeSort_singleton _
  refine ⟨hregions, rfl, ?_⟩
  rw [hregions]
  decide

end CodeFolding
