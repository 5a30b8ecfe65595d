import CodeFolding.Proofs.Independence

/-!
The line end at the end of a text.

With it the text has one more line, which is empty. A statement that is still open takes that line
in, and nothing else is found on it; the view leaves the line out. So folds by hand and views are the
same for a text with a final line end and for the text without it.
-/

set_option autoImplicit false

namespace CodeFolding

/-! ## The last line -/

section Lines

variable {source : List Char}

/-- A text that ends neither in `\n` nor in `\r`. -/
def EndsInLine (source : List Char) : Prop :=
  source.getLast? ≠ some '\n' ∧ source.getLast? ≠ some '\r'

theorem EndsInLine.of_cons {c : Char} {rest : List Char} (h : EndsInLine (c :: rest)) :
    EndsInLine rest := by
  cases rest with
  | nil => simp [EndsInLine]
  | cons d rest => simpa [EndsInLine] using h

theorem splitLines_append_lineEnd (h : EndsInLine source) :
    splitLines (source ++ ['\n']) = splitLines source ++ [[]] := by
  fun_induction splitLines source with
  | case1 => rfl
  | case2 rest ih => simp [splitLines, ih h.of_cons.of_cons]
  | case3 rest ih => simp [splitLines, ih h.of_cons]
  | case4 rest hrest ih =>
    cases rest with
    | nil => simp [EndsInLine] at h
    | cons c rest =>
      have hc : c ≠ '\n' := fun hc => hrest rest (by rw [hc])
      have hmore := ih h.of_cons
      rw [List.cons_append] at hmore ⊢
      simp [splitLines, hc, hmore]
  | case5 c rest _ hn hr ih =>
    rw [List.cons_append, splitLines_cons hn hr, ih h.of_cons]
    cases hlines : splitLines rest with
    | nil => exact absurd hlines (splitLines_ne_nil rest)
    | cons line more => rfl

theorem getLast?_splitLines (h : EndsInLine source) (hne : source ≠ []) :
    (splitLines source).getLast? ≠ some [] := by
  have hcons : ∀ rest, ([] :: splitLines rest).getLast? = (splitLines rest).getLast? := fun rest =>
    List.getLast?_cons_of_ne_nil (splitLines_ne_nil rest)
  fun_induction splitLines source with
  | case1 => exact absurd rfl hne
  | case2 rest ih =>
    rw [hcons]
    refine ih h.of_cons.of_cons ?_
    rintro rfl
    simp [EndsInLine] at h
  | case3 rest ih =>
    rw [hcons]
    refine ih h.of_cons ?_
    rintro rfl
    simp [EndsInLine] at h
  | case4 rest _ ih =>
    rw [hcons]
    refine ih h.of_cons ?_
    rintro rfl
    simp [EndsInLine] at h
  | case5 c rest _ _ _ ih =>
    cases hlines : splitLines rest with
    | nil => exact absurd hlines (splitLines_ne_nil rest)
    | cons line more =>
      cases more with
      | nil => simp [consFirst]
      | cons next more =>
        have hrest : rest ≠ [] := by
          rintro rfl
          simp [splitLines] at hlines
        have hlast := ih h.of_cons hrest
        rw [hlines, List.getLast?_cons_cons] at hlast
        rwa [consFirst, List.getLast?_cons_cons]

theorem shownLines_append_lineEnd (h : EndsInLine source) :
    View.shownLines (source ++ ['\n']) = splitLines source ∧
      View.shownLines source = splitLines source := by
  constructor
  · have hpos := List.length_pos_iff.2 (splitLines_ne_nil source)
    simp only [View.shownLines, splitLines_append_lineEnd h]
    rw [if_pos ⟨by simp [hpos], by simp⟩, List.dropLast_concat]
  · by_cases hne : source = []
    · rw [hne]
      rfl
    · rw [View.shownLines, if_neg fun hlast => getLast?_splitLines h hne hlast.2]

end Lines

/-! ## Nothing is found on the last line -/

/-- The line from which on a statement is open. -/
def ImportSearch.openSince : ImportSearch → Option Nat
  | .between _ => none
  | .within first _ => some first

/-- The lines of a statement that is still open behind line `n`. -/
def ImportSearch.unended (s : ImportSearch) (n : Nat) : List Span :=
  (s.openSince.map (Span.mk · n)).toList

theorem ImportSearch.length_unended (s : ImportSearch) (n : Nat) :
    (s.unended n).length = s.openSince.toList.length := by
  cases s <;> rfl

section Rows

variable {rows : List Row} {r : Row}

theorem importSpans_eq_unended (rows : List Row) :
    importSpans rows = ImportSearch.ended 1 (.between 0) rows ++
      (ImportSearch.after 1 (.between 0) rows).unended rows.length := by
  rw [importSpans, ImportSearch.spans_eq_ended]
  cases ImportSearch.after 1 (.between 0) rows with
  | between attributes => rfl
  | within first depth =>
    simp [ImportSearch.spans, ImportSearch.unended, ImportSearch.openSince]

/-- An empty line ends no statement and begins none. -/
theorem importSpans_append_empty (rows : List Row) (hr : r.cells = []) :
    importSpans (rows ++ [r]) = ImportSearch.ended 1 (.between 0) rows ++
      (ImportSearch.after 1 (.between 0) rows).unended (rows.length + 1) := by
  rw [importSpans, ImportSearch.spans_append]
  cases ImportSearch.after 1 (.between 0) rows with
  | between attributes =>
    simp [ImportSearch.spans, ImportSearch.step, ImportSearch.unended, ImportSearch.openSince, hr,
      Cell.fromUse?]
  | within first depth =>
    simp [ImportSearch.spans, ImportSearch.step, ImportSearch.unended, ImportSearch.openSince, hr,
      Cell.statementDepth, Nat.add_comm]

theorem ownsLine_append_empty (hr : r.cells = []) {l : Nat} (hl : l ≤ rows.length) :
    ownsLine (importSpans (rows ++ [r])) l = ownsLine (importSpans rows) l := by
  rw [importSpans_append_empty rows hr, importSpans_eq_unended, ownsLine_append, ownsLine_append]
  cases (ImportSearch.after 1 (.between 0) rows) with
  | between attributes => rfl
  | within first depth =>
    simp [ImportSearch.unended, ImportSearch.openSince, ownsLine, Span.contains, hl,
      Nat.le_add_right_of_le hl]

theorem blockRegions_append_empty (policy : Policy) (hr : r.cells = []) :
    blockRegions policy (importSpans (rows ++ [r])) (rows ++ [r]) =
      blockRegions policy (importSpans rows) rows := by
  have howned := Nesting.blocks_congr policy (importSpans (rows ++ [r])) (importSpans rows) (n := 1)
    .empty rows fun l _ hl => ownsLine_append_empty hr (by omega)
  have hlive : Nesting.liveChars r = [] := by rw [Nesting.liveChars, hr]; rfl
  rw [blockRegions, Nesting.blocks_append, howned.1, Nesting.blocks, Nesting.line, hlive]
  exact List.append_nil _

end Rows

/-! ## Views of regions that agree up to a line -/

/-- Regions that differ only in statements, and there only behind line `n`. -/
structure Region.AgreesTo (n : Nat) (r r' : Region) : Prop where
  others : r' = { r with spans := r'.spans }
  hides : ∀ l ≤ n, r'.hides l = r.hides l

section Views

variable {n : Nat} {r r' : Region} {regions regions' : List Region}

theorem Region.AgreesTo.refl (n : Nat) (r : Region) : r.AgreesTo n r := ⟨rfl, fun _ _ => rfl⟩

theorem Region.AgreesTo.toggle (h : r.AgreesTo n r') : r.toggle.AgreesTo n r'.toggle where
  others := by
    rw [h.others]
    rfl
  hides := h.hides

theorem forall₂_toggleAt (h : List.Forall₂ (Region.AgreesTo n) regions regions') (line : Nat) :
    List.Forall₂ (Region.AgreesTo n) (Region.toggleAt line regions).1
        (Region.toggleAt line regions').1 ∧
      (Region.toggleAt line regions').2 = (Region.toggleAt line regions).2 := by
  induction h with
  | nil => exact ⟨.nil, rfl⟩
  | @cons r r' regions regions' hr hrest ih =>
    have hfirst : r'.first = r.first := by rw [hr.others]
    simp only [Region.toggleAt, hfirst]
    split
    · exact ⟨.cons hr.toggle hrest, rfl⟩
    · exact ⟨.cons hr ih.1, ih.2⟩

theorem forall₂_toggleAll (h : List.Forall₂ (Region.AgreesTo n) regions regions')
    (toggles : List Nat) :
    List.Forall₂ (Region.AgreesTo n) (Region.toggleAll regions toggles).1
        (Region.toggleAll regions' toggles).1 ∧
      (Region.toggleAll regions' toggles).2 = (Region.toggleAll regions toggles).2 := by
  induction toggles generalizing regions regions' with
  | nil => exact ⟨h, rfl⟩
  | cons line rest ih =>
    obtain ⟨hone, hsaid⟩ := forall₂_toggleAt h line
    obtain ⟨hmore, hsaid'⟩ := ih hone
    exact ⟨hmore, by simp only [Region.toggleAll, hsaid, hsaid']⟩

theorem map_find?_eq {β : Type} {f : Region → β}
    (h : List.Forall₂ (Region.AgreesTo n) regions regions') {p : Region → Bool}
    (hp : ∀ r spans, p { r with spans := spans } = p r)
    (hf : ∀ r r', p r = true → r.AgreesTo n r' → f r' = f r) :
    (regions'.find? p).map f = (regions.find? p).map f := by
  induction h with
  | nil => rfl
  | @cons r r' regions regions' hr _ ih =>
    have hsame : p r' = p r := by rw [hr.others, hp]
    rw [List.find?_cons, List.find?_cons, hsame]
    split
    · rename_i hfound
      exact congrArg some (hf r r' hfound hr)
    · exact ih

theorem isHidden_eq (h : List.Forall₂ (Region.AgreesTo n) regions regions') {l : Nat} (hl : l ≤ n) :
    View.isHidden regions' l = View.isHidden regions l := by
  induction h with
  | nil => rfl
  | @cons r r' regions regions' hr _ ih =>
    have hfolded : r'.folded = r.folded := by rw [hr.others]
    simp only [View.isHidden, List.any_cons, hfolded, hr.hides l hl] at ih ⊢
    rw [ih]

theorem marker_eq_map (style : Style) (o : Option Region) :
    View.marker style o = (o.map fun r => View.marker style (some r)).getD [' '] := by
  cases o <;> rfl

/-- The placeholder of a block does not count lines of statements. -/
theorem placeholder_eq (h : r.AgreesTo n r') (hr : r.isImports = false) (style : Style) :
    View.placeholder style r' = View.placeholder style r := by
  have hbody : ∀ spans, ({ r with spans := spans } : Region).bodyLines = r.bodyLines := by
    intro spans
    have himports : ({ r with spans := spans } : Region).isImports = false := hr
    rw [Region.bodyLines, Region.bodyLines, himports, hr]
    rfl
  rw [View.placeholder, h.others, hbody]
  rfl

theorem lineRow_eq (h : List.Forall₂ (Region.AgreesTo n) regions regions') (style : Style)
    (width l : Nat) (text : List Char) :
    View.lineRow style width regions' l text = View.lineRow style width regions l text := by
  let starts : Region → Bool := fun r => !r.isImports && r.first == l
  have hmarker : View.marker style (regions'.find? starts) =
      View.marker style (regions.find? starts) := by
    rw [marker_eq_map, marker_eq_map, map_find?_eq h (fun _ _ => rfl) fun r r' _ hr => ?_]
    rw [hr.others]
    rfl
  have hplace : (regions'.find? fun r => starts r && r.folded).map (View.placeholder style) =
      (regions.find? fun r => starts r && r.folded).map (View.placeholder style) := by
    refine map_find?_eq h (fun _ _ => rfl) fun r r' hr hagree => placeholder_eq hagree ?_ style
    simp only [starts, Bool.and_eq_true, Bool.not_eq_true'] at hr
    exact hr.1.1
  simp only [starts] at hmarker hplace
  simp only [View.lineRow, View.gutter, hmarker, hplace]

theorem lineRows_eq (h : List.Forall₂ (Region.AgreesTo n) regions regions') (style : Style)
    (width : Nat) {l : Nat} (lines : List (List Char)) (hl : l + lines.length ≤ n + 1) :
    View.lineRows style width regions' l lines = View.lineRows style width regions l lines := by
  induction lines generalizing l with
  | nil => rfl
  | cons text rest ih =>
    rw [List.length_cons] at hl
    simp only [View.lineRows, isHidden_eq h (show l ≤ n by omega), lineRow_eq h,
      ih (show l + 1 + rest.length ≤ n + 1 by omega)]

theorem hiddenFrom_eq (h : List.Forall₂ (Region.AgreesTo n) regions regions') {l count : Nat}
    (hl : l + count ≤ n + 1) : View.hiddenFrom regions' l count = View.hiddenFrom regions l count := by
  induction count generalizing l with
  | zero => rfl
  | succ count ih =>
    simp only [View.hiddenFrom, isHidden_eq h (show l ≤ n by omega),
      ih (show l + 1 + count ≤ n + 1 by omega)]

/-- A view shows regions that agree up to its last line alike. -/
theorem view_eq {source source' : List Char}
    (hshown : View.shownLines source' = View.shownLines source)
    (h : List.Forall₂ (Region.AgreesTo (View.shownLines source).length) regions regions')
    (style : Style) : View.render style source' regions' = View.render style source regions ∧
      View.hidden source' regions' = View.hidden source regions := by
  have hheader : (regions'.find? Region.isImports).map
        (View.importsRow style (View.numberWidth source)) =
      (regions.find? Region.isImports).map (View.importsRow style (View.numberWidth source)) := by
    refine map_find?_eq h (fun _ _ => rfl) fun r r' _ hr => ?_
    rw [hr.others]
    rfl
  have hwidth : View.numberWidth source' = View.numberWidth source := by
    rw [View.numberWidth, View.numberWidth, hshown]
  constructor
  · rw [View.render, View.render, View.rows, View.rows, hwidth, hheader, hshown,
      lineRows_eq h style _ _ (by omega)]
  · rw [View.hidden, View.hidden, hshown, hiddenFrom_eq h (by omega)]

theorem importRegion?_agrees {spans spans' : List Span} (hlength : spans'.length = spans.length)
    (howned : ∀ l ≤ n, ownsLine spans' l = ownsLine spans l) (folded : Bool) :
    List.Forall₂ (Region.AgreesTo n) (importRegion? spans folded).toList
      (importRegion? spans' folded).toList := by
  cases spans with
  | nil =>
    rw [List.eq_nil_of_length_eq_zero hlength]
    exact .nil
  | cons s rest =>
    cases spans' with
    | nil => simp at hlength
    | cons s' rest' => exact .cons ⟨by rw [Region.ofImports, hlength]; rfl, howned⟩ .nil

end Views

/-! ## With and without the line end -/

section Sources

variable {source : List Char}

theorem rowsOf_append_lineEnd (h : EndsInLine source) :
    ∃ r, r.cells = [] ∧ rowsOf (source ++ ['\n']) = rowsOf source ++ [r] := by
  rw [rowsOf, splitLines_append_lineEnd h, Row.ofLines_append]
  exact ⟨_, rfl, rfl⟩

theorem listedBlocks_append_lineEnd (policy : Policy) (h : EndsInLine source) :
    listedBlocks policy (source ++ ['\n']) = listedBlocks policy source := by
  obtain ⟨r, hr, hrows⟩ := rowsOf_append_lineEnd h
  have hperm := listedBlocks_perm policy (source ++ ['\n'])
  rw [hrows, blockRegions_append_empty policy hr] at hperm
  exact Region.eq_of_perm (hperm.trans (listedBlocks_perm policy source).symm)
    (listedBlocks_pairwise _ _) (listedBlocks_pairwise _ _)

theorem identify_agrees (policy : Policy) (h : EndsInLine source) :
    List.Forall₂ (Region.AgreesTo (splitLines source).length) (identify policy source)
      (identify policy (source ++ ['\n'])) := by
  obtain ⟨r, hr, hrows⟩ := rowsOf_append_lineEnd h
  have hlength : (importSpans (rowsOf (source ++ ['\n']))).length =
      (importSpans (rowsOf source)).length := by
    rw [hrows, importSpans_append_empty _ hr, importSpans_eq_unended, List.length_append,
      List.length_append, ImportSearch.length_unended, ImportSearch.length_unended]
  have howned : ∀ l ≤ (splitLines source).length,
      ownsLine (importSpans (rowsOf (source ++ ['\n']))) l =
        ownsLine (importSpans (rowsOf source)) l := by
    intro l hl
    rw [hrows]
    exact ownsLine_append_empty hr (by rwa [length_rowsOf])
  rw [identify_eq_append, identify_eq_append, listedBlocks_append_lineEnd policy h]
  exact List.rel_append (importRegion?_agrees hlength howned policy.imports)
    (List.forall₂_same.2 fun r _ => .refl _ r)

end Sources

/-- With a line end behind its last line a text has the same blocks and the same statements, but for
one that is still open, which has one more line; and after the same folds by hand the view of it is
the same and hides as many lines. -/
theorem identify_final_lineEnd (policy : Policy) (source : List Char) (h : EndsInLine source) :
    (let last := ImportSearch.after 1 (.between 0) (rowsOf source)
      let n := (splitLines source).length
      ∃ ended blocks, (∀ r ∈ blocks, r.isImports = false) ∧
        identify policy source =
          (importRegion? (ended ++ last.unended n) policy.imports).toList ++ blocks ∧
        identify policy (source ++ ['\n']) =
          (importRegion? (ended ++ last.unended (n + 1)) policy.imports).toList ++ blocks) ∧
    ∀ (style : Style) (toggles : List Nat),
      let without := Region.toggleAll (identify policy source) toggles
      let ended := Region.toggleAll (identify policy (source ++ ['\n'])) toggles
      ended.2 = without.2 ∧
      View.render style (source ++ ['\n']) ended.1 = View.render style source without.1 ∧
      View.hidden (source ++ ['\n']) ended.1 = View.hidden source without.1 := by
  constructor
  · obtain ⟨r, hr, hrows⟩ := rowsOf_append_lineEnd h
    have hspans := importSpans_eq_unended (rowsOf source)
    have hspans' := importSpans_append_empty (rowsOf source) hr
    rw [length_rowsOf] at hspans hspans'
    refine ⟨ImportSearch.ended 1 (.between 0) (rowsOf source), listedBlocks policy source,
      isImports_of_mem_listedBlocks, ?_, ?_⟩
    · rw [identify_eq_append, hspans]
    · rw [identify_eq_append, hrows, hspans', listedBlocks_append_lineEnd policy h]
  · intro style toggles
    obtain ⟨hshown, hshown'⟩ := shownLines_append_lineEnd h
    obtain ⟨hregions, hsaid⟩ := forall₂_toggleAll (identify_agrees policy h) toggles
    rw [← hshown'] at hregions
    exact ⟨hsaid, view_eq (hshown.trans hshown'.symm) hregions style⟩

/-- A function, and behind it a statement that is never closed; the imports and the function are
folded and unfolded by hand, and one fold misses. -/
theorem identify_final_lineEnd_in_statement :
    let source := "fn f() \x7b\n\n\x7d\nuse a::\x7bb".toList
    EndsInLine source ∧
      importSpans (rowsOf source) = [⟨4, 4⟩] ∧ importSpans (rowsOf (source ++ ['\n'])) = [⟨4, 5⟩] ∧
      let without := Region.toggleAll (identify .standard source) [0, 1, 2]
      let ended := Region.toggleAll (identify .standard (source ++ ['\n'])) [0, 1, 2]
      ended.2 = without.2 ∧
      View.render .coloured (source ++ ['\n']) ended.1 =
        View.render .coloured source without.1 ∧
      View.hidden (source ++ ['\n']) ended.1 = View.hidden source without.1 := by
  intro source
  have h : EndsInLine source := ⟨by decide, by decide⟩
  exact ⟨h, by decide, by decide, (identify_final_lineEnd .standard source h).2 .coloured [0, 1, 2]⟩

end CodeFolding
