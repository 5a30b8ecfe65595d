import CodeFolding.Proofs.LineEnds
import CodeFolding.Proofs.RegionList

/-!
Parts of a text that are identified apart.

Where nothing is open behind some lines, the lines that follow are read as a text of their own. Only
the line numbers tell the two readings apart, and the scans use these for nothing but comparing
them, so a shift of all lines goes through every step.
-/

set_option autoImplicit false

namespace CodeFolding

/-! ## Line numbers under a map -/

def Span.mapLines (f : Nat → Nat) (s : Span) : Span := ⟨f s.first, f s.last⟩

def Region.mapLines (f : Nat → Nat) (r : Region) : Region :=
  { r with
    first := f r.first
    last := f r.last
    brace := f r.brace
    spans := r.spans.map (·.mapLines f) }

def ImportSearch.mapLines (f : Nat → Nat) : ImportSearch → ImportSearch
  | .between attributes => .between attributes
  | .within first depth => .within (f first) depth

def Keyword.mapLines (f : Nat → Nat) (k : Keyword) : Keyword := ⟨f k.line, k.kind⟩

def Brace.mapLines (f : Nat → Nat) (b : Brace) : Brace := ⟨f b.line, b.keyword.map (·.mapLines f)⟩

def Nesting.mapLines (f : Nat → Nat) (s : Nesting) : Nesting :=
  ⟨s.braces.map (·.mapLines f), s.waiting.map (·.mapLines f)⟩

theorem strictMono_shift (d : Nat) : StrictMono (· + d) := fun _ _ => Nat.add_lt_add_right (k := d)

section MapLines

variable {f : Nat → Nat} {policy : Policy}

/-- The search compares no lines; it only counts back over the attribute lines. -/
theorem ImportSearch.step_mapLines {n : Nat} {s : ImportSearch} (row : Row)
    (hback : ∀ attributes, s = .between attributes → f n - attributes = f (n - attributes)) :
    (s.mapLines f).step (f n) row =
      ((s.step n row).1.mapLines f, (s.step n row).2.map (·.mapLines f)) := by
  cases s with
  | within first depth =>
    simp only [mapLines, step]
    cases Cell.statementDepth depth row.cells <;> rfl
  | between attributes =>
    simp only [mapLines, step, hback attributes rfl]
    cases Cell.fromUse? none row.cells with
    | none => rfl
    | some cells =>
      dsimp only
      cases Cell.statementDepth 0 cells <;> rfl

theorem Brace.block?_mapLines (hf : StrictMono f) (n level : Nat) (b : Brace) :
    (b.mapLines f).block? policy (f n) level = (b.block? policy n level).map (·.mapLines f) := by
  obtain ⟨line, keyword⟩ := b
  cases keyword with
  | none => rfl
  | some k =>
    simp only [block?, mapLines, Option.map_some, hf.lt_iff_lt]
    by_cases hline : line < n
    · simp [hline, Region.block, Region.mapLines, Keyword.mapLines]
    · simp [hline]

theorem Nesting.step_mapLines (hf : StrictMono f) (n : Nat) (owned : Bool) (s : Nesting)
    (char : Char) : (s.mapLines f).step policy (f n) owned char =
      ((s.step policy n owned char).1.mapLines f,
        (s.step policy n owned char).2.map (·.mapLines f)) := by
  simp only [step]
  by_cases hopen : char = '{'
  · cases owned <;> simp [hopen, mapLines, Brace.mapLines]
  · simp only [if_neg hopen]
    by_cases hclose : char = '}'
    · simp only [if_pos hclose]
      obtain ⟨braces, waiting⟩ := s
      cases braces with
      | nil => rfl
      | cons b rest => simp [mapLines, Brace.block?_mapLines hf]
    · simp only [if_neg hclose, Option.map_none]

theorem Nesting.steps_mapLines (hf : StrictMono f) (n : Nat) (owned : Bool) (s : Nesting)
    (chars : List Char) : (s.mapLines f).steps policy (f n) owned chars =
      ((s.steps policy n owned chars).1.mapLines f,
        (s.steps policy n owned chars).2.map (·.mapLines f)) := by
  induction chars generalizing s with
  | nil => rfl
  | cons c rest ih =>
    simp only [steps, step_mapLines hf, ih, List.map_append]
    cases (s.step policy n owned c).2 <;> rfl

theorem Nesting.candidate?_mapLines (f : Nat → Nat) (n : Nat) (owned : Bool) (row : Row) :
    candidate? (f n) owned row = (candidate? n owned row).map (·.mapLines f) := by
  simp only [candidate?]
  split
  · rfl
  · split
    · split <;> rfl
    · rfl

theorem Nesting.endLine_mapLines (hf : StrictMono f) (n : Nat) (row : Row) (s : Nesting) :
    (s.mapLines f).endLine (f n) row = (s.endLine n row).mapLines f := by
  obtain ⟨braces, waiting⟩ := s
  cases waiting with
  | none => rfl
  | some k =>
    simp only [endLine, mapLines, Option.map_some, Keyword.mapLines, hf.injective.eq_iff]
    split <;> rfl

theorem Nesting.line_mapLines (policy : Policy) (hf : StrictMono f) (n : Nat) (owned : Bool)
    (row : Row) (s : Nesting) : (s.mapLines f).line policy (f n) owned row =
      ((s.line policy n owned row).1.mapLines f,
        (s.line policy n owned row).2.map (·.mapLines f)) := by
  have hbegin : (⟨(s.mapLines f).braces, (candidate? (f n) owned row).or (s.mapLines f).waiting⟩ :
      Nesting) = mapLines f ⟨s.braces, (candidate? n owned row).or s.waiting⟩ := by
    rw [candidate?_mapLines]
    cases candidate? n owned row <;> rfl
  simp only [line, hbegin, steps_mapLines hf, endLine_mapLines hf]

/-! ## What lines leave open -/

/-- The comment or literal that is open behind some lines. -/
def Carry.after (s : Carry) : List (List Char) → Carry
  | [] => s
  | line :: rest => after (classify s line).2 rest

/-- The search behind the lines from `n` on. -/
def ImportSearch.after (n : Nat) (s : ImportSearch) : List Row → ImportSearch
  | [] => s
  | row :: rest => after (n + 1) (s.step n row).1 rest

/-- The braces and the waiting keyword behind the lines from `n` on. -/
def Nesting.after (policy : Policy) (spans : List Span) (n : Nat) (s : Nesting) : List Row → Nesting
  | [] => s
  | row :: rest => after policy spans (n + 1) (s.line policy n (ownsLine spans n) row).1 rest

theorem Row.ofLines_append (s : Carry) (xs ys : List (List Char)) :
    ofLines s (xs ++ ys) = ofLines s xs ++ ofLines (s.after xs) ys := by
  induction xs generalizing s with
  | nil => rfl
  | cons line rest ih => simp [ofLines, Carry.after, ih]

/-- The statements that end on the lines from `n` on. -/
def ImportSearch.ended (n : Nat) (s : ImportSearch) : List Row → List Span
  | [] => []
  | row :: rest => (s.step n row).2.toList ++ ended (n + 1) (s.step n row).1 rest

theorem ImportSearch.spans_append (n : Nat) (s : ImportSearch) (xs ys : List Row) :
    s.spans n (xs ++ ys) = s.ended n xs ++ (s.after n xs).spans (n + xs.length) ys := by
  induction xs generalizing n s with
  | nil => rfl
  | cons row rest ih =>
    rw [List.cons_append, spans, ended, after, ih, List.append_assoc, List.length_cons,
      Nat.add_right_comm, Nat.add_assoc n]

theorem ImportSearch.spans_eq_ended (n : Nat) (s : ImportSearch) (rows : List Row) :
    s.spans n rows = s.ended n rows ++ (s.after n rows).spans (n + rows.length) [] := by
  rw [← spans_append, List.append_nil]

/-- No more lines are counted back than there are behind line `b`. -/
theorem ImportSearch.attributes_le {b n attributes : Nat} {s : ImportSearch} (row : Row)
    (hb : b ≤ n + 1) (hback : ∀ before, s = .between before → before + b ≤ n)
    (h : (s.step n row).1 = .between attributes) : attributes + b ≤ n + 1 := by
  cases s with
  | within first depth =>
    simp only [step] at h
    split at h
    · obtain rfl := ImportSearch.between.inj h
      omega
    · simp at h
  | between before =>
    have := hback before rfl
    simp only [step] at h
    repeat' split at h
    all_goals simp at h
    all_goals omega

/-- Where lines move together, so do the statements. -/
theorem ImportSearch.ended_mapLines {b d n : Nat} {s : ImportSearch} (rows : List Row) (hb : b ≤ n)
    (hback : ∀ attributes, s = .between attributes → attributes + b ≤ n)
    (hmove : ∀ l, b ≤ l → l < n + rows.length → f l = l + d) :
    (s.mapLines f).ended (n + d) rows = (s.ended n rows).map (·.mapLines f) ∧
      (s.mapLines f).after (n + d) rows = (s.after n rows).mapLines f := by
  induction rows generalizing n s with
  | nil => exact ⟨rfl, rfl⟩
  | cons row rest ih =>
    rw [List.length_cons] at hmove
    have hn : f n = n + d := hmove n hb (by omega)
    have hstep := step_mapLines (f := f) (n := n) row fun attributes hs => by
      have := hback attributes hs
      rw [hn, hmove (n - attributes) (by omega) (by omega)]
      omega
    have hrest := ih (n := n + 1) (s := (s.step n row).1) (by omega)
      (fun _ => attributes_le row (by omega) hback) fun l hl hl' => hmove l hl (by omega)
    rw [hn] at hstep
    simp only [ended, after, hstep, List.map_append, Nat.add_right_comm n d, hrest, and_true]
    cases (s.step n row).2 <;> rfl

/-- A statement that is still open ends with the last line, so that line has to move with them. -/
theorem ImportSearch.spans_mapLines {b d n : Nat} {s : ImportSearch} (rows : List Row) (hb : b ≤ n)
    (hback : ∀ attributes, s = .between attributes → attributes + b ≤ n)
    (hmove : ∀ l, b ≤ l → l < n + rows.length → f l = l + d)
    (hlast : f (n + rows.length - 1) = n + rows.length + d - 1) :
    (s.mapLines f).spans (n + d) rows = (s.spans n rows).map (·.mapLines f) := by
  obtain ⟨hended, hafter⟩ := ended_mapLines rows hb hback hmove
  rw [spans_eq_ended, spans_eq_ended n s, List.map_append, hended, hafter]
  cases s.after n rows with
  | between attributes => rfl
  | within first depth =>
    simp only [mapLines, spans, List.map_cons, List.map_nil, Span.mapLines, hlast,
      Nat.add_right_comm n d]

theorem Nesting.blocks_append (policy : Policy) (spans : List Span) (n : Nat) (s : Nesting)
    (xs ys : List Row) : s.blocks policy spans n (xs ++ ys) = s.blocks policy spans n xs ++
      (s.after policy spans n xs).blocks policy spans (n + xs.length) ys := by
  induction xs generalizing n s with
  | nil => rfl
  | cons row rest ih =>
    rw [List.cons_append, blocks, blocks, ih, List.append_assoc, List.length_cons, after,
      Nat.add_right_comm, Nat.add_assoc n]

/-- Spans matter only by the lines that they own. -/
theorem Nesting.blocks_congr (policy : Policy) (spans spans' : List Span) {n : Nat} (s : Nesting)
    (rows : List Row)
    (howned : ∀ l, n ≤ l → l < n + rows.length → ownsLine spans l = ownsLine spans' l) :
    s.blocks policy spans n rows = s.blocks policy spans' n rows ∧
      s.after policy spans n rows = s.after policy spans' n rows := by
  induction rows generalizing n s with
  | nil => exact ⟨rfl, rfl⟩
  | cons row rest ih =>
    rw [List.length_cons] at howned
    have hrest := fun s => ih (n := n + 1) s fun l hl hl' => howned l (by omega) (by omega)
    simp only [blocks, after, howned n (Nat.le_refl n) (by omega), hrest, and_self]

theorem Nesting.blocks_mapLines (policy : Policy) (hf : StrictMono f) {d n : Nat}
    {spans spans' : List Span} (s : Nesting) (rows : List Row)
    (hmove : ∀ l, n ≤ l → l < n + rows.length → f l = l + d)
    (howned : ∀ l, n ≤ l → l < n + rows.length → ownsLine spans' (f l) = ownsLine spans l) :
    (s.mapLines f).blocks policy spans' (n + d) rows =
        (s.blocks policy spans n rows).map (·.mapLines f) ∧
      (s.mapLines f).after policy spans' (n + d) rows =
        (s.after policy spans n rows).mapLines f := by
  induction rows generalizing n s with
  | nil => exact ⟨rfl, rfl⟩
  | cons row rest ih =>
    rw [List.length_cons] at hmove howned
    have hline := line_mapLines policy hf n (ownsLine spans n) row s
    have hrest := fun s => ih (n := n + 1) s (fun l hl hl' => hmove l (by omega) (by omega))
      fun l hl hl' => howned l (by omega) (by omega)
    rw [← howned n (Nat.le_refl n) (by omega), hmove n (Nat.le_refl n) (by omega)] at hline
    simp only [blocks, after, List.map_append, ← howned n (Nat.le_refl n) (by omega),
      hmove n (Nat.le_refl n) (by omega), hline, Nat.add_right_comm n d, hrest, and_self]

theorem ownsLine_mapLines (hf : StrictMono f) (spans : List Span) (l : Nat) :
    ownsLine (spans.map (·.mapLines f)) (f l) = ownsLine spans l := by
  simp [ownsLine, Span.mapLines, Span.contains, Function.comp_def, hf.le_iff_le]

end MapLines

/-! ## Lines that leave nothing open -/

/-- Behind some lines no comment and no literal is open, no import statement and no brace, and
neither attribute lines nor a keyword wait for what follows. -/
structure Closed (policy : Policy) (lines : List (List Char)) : Prop where
  carry : Carry.neutral.after lines = .neutral
  search : ImportSearch.after 1 (.between 0) (Row.ofLines .neutral lines) = .between 0
  nesting : Nesting.empty.after policy (importSpans (Row.ofLines .neutral lines)) 1
    (Row.ofLines .neutral lines) = .empty

section Closed

variable {policy : Policy} {p q : List (List Char)}

theorem Closed.rows_append (h : Closed policy p) (q : List (List Char)) :
    Row.ofLines .neutral (p ++ q) = Row.ofLines .neutral p ++ Row.ofLines .neutral q := by
  rw [Row.ofLines_append, h.carry]

theorem Closed.importSpans_append (h : Closed policy p) (q : List (List Char)) :
    importSpans (Row.ofLines .neutral (p ++ q)) = importSpans (Row.ofLines .neutral p) ++
      (importSpans (Row.ofLines .neutral q)).map (·.mapLines (· + p.length)) := by
  have hshift := ImportSearch.spans_mapLines (f := (· + p.length)) (b := 1) (n := 1)
    (s := .between 0) (Row.ofLines .neutral q) (Nat.le_refl 1) (by simp) (fun _ _ _ => rfl)
    (by omega)
  have hended := ImportSearch.spans_eq_ended 1 (.between 0) (Row.ofLines .neutral p)
  rw [h.search] at hended
  rw [h.rows_append, importSpans, ImportSearch.spans_append, h.search, Row.length_ofLines,
    importSpans, hended]
  exact congrArg₂ _ (List.append_nil _).symm hshift

theorem ownsLine_append (xs ys : List Span) (l : Nat) :
    ownsLine (xs ++ ys) l = (ownsLine xs l || ownsLine ys l) := List.any_append

/-- The lines of the two parts are owned as in the parts. -/
theorem Closed.ownsLine_first (h : Closed policy p) (q : List (List Char)) {l : Nat}
    (hl : l ≤ p.length) : ownsLine (importSpans (Row.ofLines .neutral (p ++ q))) l =
      ownsLine (importSpans (Row.ofLines .neutral p)) l := by
  have hbehind : ownsLine ((importSpans (Row.ofLines .neutral q)).map (·.mapLines (· + p.length))) l =
      false := by
    refine (ownsLine_eq_false _ _).2 fun s hs => ?_
    obtain ⟨t, ht, rfl⟩ := List.mem_map.1 hs
    have := (importSpans_within ht).1
    have hlt : ¬ t.first + p.length ≤ l := by omega
    simp [Span.contains, Span.mapLines, hlt]
  rw [h.importSpans_append, ownsLine_append, hbehind, Bool.or_false]

theorem Closed.ownsLine_second (h : Closed policy p) (q : List (List Char)) {l : Nat}
    (hl : 0 < l) : ownsLine (importSpans (Row.ofLines .neutral (p ++ q))) (l + p.length) =
      ownsLine (importSpans (Row.ofLines .neutral q)) l := by
  have hbefore : ownsLine (importSpans (Row.ofLines .neutral p)) (l + p.length) = false := by
    refine (ownsLine_eq_false _ _).2 fun s hs => ?_
    have := (importSpans_within hs).2.2
    rw [Row.length_ofLines] at this
    simp only [Span.contains, Bool.and_eq_false_iff, decide_eq_false_iff_not]
    omega
  rw [h.importSpans_append, ownsLine_append, hbefore, Bool.false_or]
  exact ownsLine_mapLines (strictMono_shift p.length) _ l

theorem Closed.blockRegions_append (h : Closed policy p) (q : List (List Char)) :
    blockRegions policy (importSpans (Row.ofLines .neutral (p ++ q)))
        (Row.ofLines .neutral (p ++ q)) =
      blockRegions policy (importSpans (Row.ofLines .neutral p)) (Row.ofLines .neutral p) ++
      (blockRegions policy (importSpans (Row.ofLines .neutral q)) (Row.ofLines .neutral q)).map
        (·.mapLines (· + p.length)) := by
  have hfirst := Nesting.blocks_congr policy (importSpans (Row.ofLines .neutral (p ++ q)))
    (importSpans (Row.ofLines .neutral p)) (n := 1) .empty (Row.ofLines .neutral p) fun l _ hl =>
      h.ownsLine_first q (by rw [Row.length_ofLines] at hl; omega)
  have hsecond := (Nesting.blocks_mapLines policy (strictMono_shift p.length) (n := 1) .empty
    (Row.ofLines .neutral q) (fun _ _ _ => rfl) fun l hl _ => h.ownsLine_second q hl).1
  generalize importSpans (Row.ofLines .neutral (p ++ q)) = spans at hfirst hsecond ⊢
  rw [h.rows_append, blockRegions, Nesting.blocks_append, hfirst.1, hfirst.2, h.nesting,
    Row.length_ofLines]
  exact congrArg _ hsecond

end Closed

/-- The blocks of a text in the order in which they are listed. -/
def listedBlocks (policy : Policy) (source : List Char) : List Region :=
  (identify policy source).filter fun r => !r.isImports

theorem listedBlocks_perm (policy : Policy) (source : List Char) :
    (listedBlocks policy source).Perm
      (blockRegions policy (importSpans (rowsOf source)) (rowsOf source)) := by
  have hblocks : (blockRegions policy (importSpans (rowsOf source)) (rowsOf source)).filter
      (fun r => !r.isImports) = blockRegions policy (importSpans (rowsOf source)) (rowsOf source) :=
    List.filter_eq_self.2 fun r hr => by simp [(isBlock_of_mem_blockRegions hr).1]
  have himports : ((importRegion? (importSpans (rowsOf source)) policy.imports).toList).filter
      (fun r => !r.isImports) = [] := by
    refine List.filter_eq_nil_iff.2 fun r hr => ?_
    obtain ⟨-, rfl⟩ := mem_importRegion?.1 (Option.mem_toList.1 hr)
    simp [Region.isImports, Region.ofImports]
  have hperm := (identify_perm policy source).filter fun r => !r.isImports
  rwa [List.filter_append, himports, hblocks, List.nil_append] at hperm

theorem isImports_of_mem_listedBlocks {policy : Policy} {source : List Char} :
    ∀ r ∈ listedBlocks policy source, r.isImports = false := fun r hr => by
  simpa using (List.mem_filter.1 hr).2

theorem listedBlocks_pairwise (policy : Policy) (source : List Char) :
    (listedBlocks policy source).Pairwise fun a b => a.first < b.first :=
  (identify_pairwise policy source).filter _

theorem isBlock_of_mem_listedBlocks {policy : Policy} {source : List Char} {r : Region}
    (h : r ∈ listedBlocks policy source) :
    r.IsBlock (splitLines source).length (importSpans (rowsOf source)) :=
  isBlock_of_mem_identify (List.mem_filter.1 h).1 (isImports_of_mem_listedBlocks r h)

/-- The import block comes first. -/
theorem identify_eq_append (policy : Policy) (source : List Char) : identify policy source =
    (importRegion? (importSpans (rowsOf source)) policy.imports).toList ++
      listedBlocks policy source := by
  refine Region.eq_of_perm ?_ (identify_pairwise _ _) ?_
  · exact (identify_perm policy source).trans ((listedBlocks_perm policy source).symm.append_left _)
  · refine List.pairwise_append.2 ⟨?_, listedBlocks_pairwise _ _, fun a ha b hb => ?_⟩
    · cases importRegion? (importSpans (rowsOf source)) policy.imports <;> simp
    · obtain ⟨-, rfl⟩ := mem_importRegion?.1 (Option.mem_toList.1 ha)
      exact (isBlock_of_mem_listedBlocks hb).start

/-- Where nothing is open behind the lines `p`, the imports and the blocks of `p ++ q` are those of
`p` followed by those of `q`, whose lines count from the last line of `p` on. -/
theorem identify_append (policy : Policy) (p q : List (List Char)) (hp : p ≠ []) (hq : q ≠ [])
    (hone : ∀ line ∈ p ++ q, OneLine line) (hclosed : Closed policy p) :
    importSpans (rowsOf (joinLines .lf (p ++ q))) =
      importSpans (rowsOf (joinLines .lf p)) ++
        (importSpans (rowsOf (joinLines .lf q))).map (·.mapLines (· + p.length)) ∧
    listedBlocks policy (joinLines .lf (p ++ q)) =
      listedBlocks policy (joinLines .lf p) ++
        (listedBlocks policy (joinLines .lf q)).map (·.mapLines (· + p.length)) := by
  have hpl : splitLines (joinLines .lf p) = p :=
    splitLines_joinLines hp fun line hline => hone line (by simp [hline])
  have hql : splitLines (joinLines .lf q) = q :=
    splitLines_joinLines hq fun line hline => hone line (by simp [hline])
  have hpq : splitLines (joinLines .lf (p ++ q)) = p ++ q :=
    splitLines_joinLines (by simp [hp]) hone
  refine ⟨by simpa only [rowsOf, hpl, hql, hpq] using hclosed.importSpans_append q, ?_⟩
  -- both sides hold the same blocks, and both are in the strict order of first lines
  refine Region.eq_of_perm ?_ (listedBlocks_pairwise _ _) ?_
  · have hblocks := hclosed.blockRegions_append q
    have hperm := listedBlocks_perm policy (joinLines .lf (p ++ q))
    have hfirst := listedBlocks_perm policy (joinLines .lf p)
    have hsecond := listedBlocks_perm policy (joinLines .lf q)
    simp only [rowsOf, hpl, hql, hpq] at hperm hfirst hsecond
    rw [hblocks] at hperm
    exact hperm.trans (hfirst.append (hsecond.map _)).symm
  · refine List.pairwise_append.2 ⟨listedBlocks_pairwise _ _, ?_, fun a ha b hb => ?_⟩
    · exact List.pairwise_map.2 ((listedBlocks_pairwise policy _).imp fun hlt =>
        Nat.add_lt_add_right hlt p.length)
    · obtain ⟨c, hc, rfl⟩ := List.mem_map.1 hb
      have ha := isBlock_of_mem_listedBlocks ha
      have hc := (isBlock_of_mem_listedBlocks hc).start
      have hlast := ha.inside
      rw [hpl] at hlast
      have hle := Nat.le_trans ha.opens (Nat.le_of_lt ha.closes)
      simp only [Region.mapLines]
      omega

/-- An import and a function that are closed, and a second function behind them. -/
theorem identify_append_function :
    let p := ["use a;".toList, "fn f() \x7b".toList, "\x7d".toList]
    let q := ["fn g() \x7b".toList, "\x7d".toList]
    p ≠ [] ∧ q ≠ [] ∧ (∀ line ∈ p ++ q, OneLine line) ∧ Closed .standard p ∧
      listedBlocks .standard (joinLines .lf (p ++ q)) =
        listedBlocks .standard (joinLines .lf p) ++
          (listedBlocks .standard (joinLines .lf q)).map (·.mapLines (· + 3)) := by
  intro p q
  have hp : p ≠ [] := by simp [p]
  have hq : q ≠ [] := by simp [q]
  have hone : ∀ line ∈ p ++ q, OneLine line := by simp [p, q, OneLine]
  have hclosed : Closed .standard p := ⟨by decide, by decide, by decide⟩
  exact ⟨hp, hq, hone, hclosed, (identify_append .standard p q hp hq hone hclosed).2⟩

end CodeFolding
