import CodeFolding.Proofs.Independence
import CodeFolding.Proofs.Remarks

/-!
Lines with nothing but a remark on them, put between the lines of a text.

Where no comment and no literal is open and no attribute lines wait, such a line leaves every state
of the two passes as it is, in the middle of a statement, of a signature or of a block. The lines
behind it are one further down, and so is what is found there.
-/

set_option autoImplicit false

namespace CodeFolding

/-- How many attribute lines lie right above the next line. -/
def ImportSearch.attributes : ImportSearch → Nat
  | .between attributes => attributes
  | .within _ _ => 0

/-- The number of a line once another line stands behind line `k`. -/
def moved (k l : Nat) : Nat := if k < l then l + 1 else l

section Moved

variable {k l : Nat}

theorem moved_of_le (h : l ≤ k) : moved k l = l := if_neg (Nat.not_lt.2 h)

theorem moved_of_lt (h : k < l) : moved k l = l + 1 := if_pos h

theorem strictMono_moved (k : Nat) : StrictMono (moved k) := by
  intro a b hab
  unfold moved
  split <;> split <;> omega

theorem moved_ne (k l : Nat) : moved k l ≠ k + 1 := by
  unfold moved
  split <;> omega

end Moved

/-! ## A line without anything -/

def Row.blank : Row := ⟨[], .neutral, []⟩

theorem matches_blank {line : List Char} (h : Remark line) :
    Row.Matches ⟨line, .neutral, (classify .neutral line).1⟩ .blank ∧
      (classify .neutral line).2 = .neutral :=
  matches_remark (.inl rfl) h (.inl rfl) rfl

theorem ImportSearch.step_blank {s : ImportSearch} (h : s.attributes = 0) (n : Nat) :
    s.step n .blank = (s, none) := by
  cases s with
  | within first depth => rfl
  | between attributes =>
    obtain rfl : attributes = 0 := h
    rfl

theorem Nesting.line_blank {s : Nesting} {n : Nat} (h : ∀ kw, s.waiting = some kw → kw.line ≠ n)
    (policy : Policy) (owned : Bool) : s.line policy n owned .blank = (s, []) := by
  have hcandidate : candidate? n owned .blank = none := by cases owned <;> rfl
  have hend : s.endLine n .blank = s := by
    cases hw : s.waiting with
    | none => simp [endLine, hw]
    | some kw => simp [endLine, hw, h kw hw]
  have hlive : liveChars .blank = [] := rfl
  simp only [line, hcandidate, Option.none_or, hlive, steps, hend]

/-! ## Regions of moved lines -/

theorem precedes_mapLines {f : Nat → Nat} (hf : StrictMono f) (a b : Region) :
    (a.mapLines f).precedes (b.mapLines f) = a.precedes b := by
  simp [Region.precedes, Region.mapLines, hf.lt_iff_lt, hf.le_iff_le, hf.injective.eq_iff,
    Bool.beq_eq_decide_eq]

theorem importRegion?_mapLines {f : Nat → Nat} (hf : f 0 = 0) (spans : List Span) (folded : Bool) :
    importRegion? (spans.map (·.mapLines f)) folded =
      (importRegion? spans folded).map (·.mapLines f) := by
  cases spans with
  | nil => rfl
  | cons s rest => simp [importRegion?, Region.ofImports, Region.mapLines, hf]

/-- Regions follow the lines of their statements and of their blocks. -/
theorem identify_mapLines {f : Nat → Nat} (hf : StrictMono f) (hzero : f 0 = 0) {policy : Policy}
    {a b : List Char}
    (hspans : importSpans (rowsOf b) = (importSpans (rowsOf a)).map (·.mapLines f))
    (hblocks : blockRegions policy (importSpans (rowsOf b)) (rowsOf b) =
      (blockRegions policy (importSpans (rowsOf a)) (rowsOf a)).map (·.mapLines f)) :
    identify policy b = (identify policy a).map (·.mapLines f) := by
  have hfound : (importRegion? (importSpans (rowsOf b)) policy.imports).toList ++
      blockRegions policy (importSpans (rowsOf b)) (rowsOf b) =
      ((importRegion? (importSpans (rowsOf a)) policy.imports).toList ++
        blockRegions policy (importSpans (rowsOf a)) (rowsOf a)).map (·.mapLines f) := by
    rw [hblocks, hspans, importRegion?_mapLines hzero, List.map_append]
    cases importRegion? (importSpans (rowsOf a)) policy.imports <;> rfl
  rw [identify, hfound, identify]
  exact (List.map_mergeSort fun r _ r' _ => (precedes_mapLines hf r r').symm).symm

/-! ## The inserted line -/

section Inserted

variable {front back : List Row} {r : Row}

theorem importSpans_inserted (hr : r.Matches .blank) (hback : back ≠ [])
    (hattr : (ImportSearch.after 1 (.between 0) front).attributes = 0) :
    importSpans (front ++ r :: back) =
      (importSpans (front ++ back)).map (·.mapLines (moved front.length)) := by
  have hpos := List.length_pos_iff.2 hback
  obtain ⟨hended, hafter⟩ := ImportSearch.ended_mapLines (f := moved front.length) (b := 0) (d := 0)
    (n := 1) (s := .between 0) front (Nat.zero_le 1) (by simp) fun l _ hl => moved_of_le (by omega)
  have hstart : (ImportSearch.between 0).mapLines (moved front.length) = .between 0 := rfl
  rw [hstart, Nat.add_zero] at hended hafter
  rw [importSpans, importSpans, ImportSearch.spans_append, ImportSearch.spans_append, List.map_append,
    ← hended]
  generalize ImportSearch.after 1 (.between 0) front = s at hattr hafter ⊢
  have hstep := (hr.search (1 + front.length) s).trans (ImportSearch.step_blank hattr _)
  have hrest := ImportSearch.spans_mapLines (f := moved front.length) (b := front.length + 1) (d := 1)
    (n := 1 + front.length) (s := s) back (by omega)
    (fun attributes hs => by
      subst hs
      simp only [ImportSearch.attributes] at hattr
      omega)
    (fun l hl _ => moved_of_lt hl)
    (by rw [moved_of_lt (by omega)]; omega)
  rw [← hrest, ← hafter, ImportSearch.spans, hstep]
  rfl

theorem blockRegions_inserted (hr : r.Matches .blank) (policy : Policy) (spans : List Span)
    (front back : List Row) :
    blockRegions policy (spans.map (·.mapLines (moved front.length))) (front ++ r :: back) =
      (blockRegions policy spans (front ++ back)).map (·.mapLines (moved front.length)) := by
  have hmono := strictMono_moved front.length
  have howned := ownsLine_mapLines hmono spans
  obtain ⟨hblocks, hafter⟩ := Nesting.blocks_mapLines policy hmono (d := 0) (n := 1) .empty front
    (fun l _ hl => moved_of_le (by omega)) fun l _ _ => howned l
  rw [blockRegions, blockRegions, Nesting.blocks_append, Nesting.blocks_append, List.map_append,
    ← hblocks]
  have hempty : Nesting.empty.mapLines (moved front.length) = .empty := rfl
  rw [Nat.add_zero, hempty] at hafter ⊢
  rw [hafter]
  generalize Nesting.empty.after policy spans 1 front = s
  -- no keyword waits from the line that is put in
  have hwaiting : ∀ kw, (s.mapLines (moved front.length)).waiting = some kw →
      kw.line ≠ 1 + front.length := by
    intro kw hkw
    obtain ⟨kw, -, rfl⟩ := Option.map_eq_some_iff.1 hkw
    rw [Nat.add_comm]
    exact moved_ne _ _
  have hline := fun owned => (hr.line policy (1 + front.length) owned _).trans
    (Nesting.line_blank hwaiting policy owned)
  have hrest := (Nesting.blocks_mapLines policy hmono (d := 1) (n := 1 + front.length) s back
    (fun l hl _ => moved_of_lt (by omega)) fun l _ _ => howned l).1
  rw [← hrest, Nesting.blocks, hline]
  rfl

end Inserted

/-- A line with nothing but a remark on it moves the lines behind it, in the middle of a statement,
of a signature or of a block too, and changes nothing else in the regions of a text. -/
theorem identify_inserted_remark (policy : Policy) (e : LineEnd) (lines : List (List Char)) (k : Nat)
    (remark : List Char) (hk : k < lines.length) (hlines : ∀ line ∈ lines, OneLine line)
    (hone : OneLine remark) (hremark : Remark remark)
    (hneutral : Carry.neutral.after (lines.take k) = .neutral)
    (hattr : (ImportSearch.after 1 (.between 0)
      (Row.ofLines .neutral (lines.take k))).attributes = 0) :
    identify policy (joinLines e (lines.take k ++ remark :: lines.drop k)) =
      (identify policy (joinLines e lines)).map (·.mapLines (moved k)) := by
  have hinserted : ∀ line ∈ lines.take k ++ remark :: lines.drop k, OneLine line := by
    intro line hline
    rcases List.mem_append.1 hline with hline | hline
    · exact hlines line (List.mem_of_mem_take hline)
    · rcases List.mem_cons.1 hline with rfl | hline
      · exact hone
      · exact hlines line (List.mem_of_mem_drop hline)
  have hne : lines ≠ [] := List.ne_nil_of_length_pos (Nat.zero_lt_of_lt hk)
  obtain ⟨hblank, hcarry⟩ := matches_blank hremark
  have hrows : rowsOf (joinLines e lines) =
      Row.ofLines .neutral (lines.take k) ++ Row.ofLines .neutral (lines.drop k) := by
    rw [rowsOf, splitLines_joinLines hne hlines]
    have happend := Row.ofLines_append .neutral (lines.take k) (lines.drop k)
    rwa [List.take_append_drop, hneutral] at happend
  have hrows' : rowsOf (joinLines e (lines.take k ++ remark :: lines.drop k)) =
      Row.ofLines .neutral (lines.take k) ++
        ⟨remark, .neutral, (classify .neutral remark).1⟩ :: Row.ofLines .neutral (lines.drop k) := by
    rw [rowsOf, splitLines_joinLines (by simp) hinserted, Row.ofLines_append, hneutral, Row.ofLines,
      hcarry]
  have hlength : (Row.ofLines .neutral (lines.take k)).length = k := by
    rw [Row.length_ofLines, List.length_take, Nat.min_eq_left (Nat.le_of_lt hk)]
  have hback : Row.ofLines .neutral (lines.drop k) ≠ [] := by
    rw [← List.length_pos_iff, Row.length_ofLines, List.length_drop]
    omega
  have hspans := importSpans_inserted hblank hback hattr
  have hblocks := fun spans => blockRegions_inserted hblank policy spans
    (Row.ofLines .neutral (lines.take k)) (Row.ofLines .neutral (lines.drop k))
  rw [hlength] at hspans hblocks
  refine identify_mapLines (strictMono_moved k) (moved_of_le (Nat.zero_le k)) ?_ ?_
  · rw [hrows, hrows', hspans]
  · rw [hrows, hrows', hspans, hblocks]

/-- A comment with a keyword and a brace in it, in the middle of a signature, of a statement with an
attribute, and of a block. -/
theorem identify_inserted_remark_in_signature :
    let lines := ["#[cfg(a)]".toList, "use a::\x7bb,".toList, "c\x7d;".toList, "fn f(".toList,
      ") \x7b".toList, "\x7d".toList]
    let remark := "\t// fn g() \x7b use \"".toList
    let inserted := fun k : Nat => lines.take k ++ remark :: lines.drop k
    (∀ line ∈ lines, OneLine line) ∧ OneLine remark ∧ Remark remark ∧
      ∀ k ∈ [0, 2, 4, 5], k < lines.length ∧ Carry.neutral.after (lines.take k) = .neutral ∧
        (ImportSearch.after 1 (.between 0) (Row.ofLines .neutral (lines.take k))).attributes = 0 ∧
        identify .standard (joinLines .lf (inserted k)) =
          (identify .standard (joinLines .lf lines)).map (·.mapLines (moved k)) := by
  intro lines remark inserted
  have hlines : ∀ line ∈ lines, OneLine line := by simp [lines, OneLine]
  have hone : OneLine remark := by simp [remark, OneLine]
  have hremark : Remark remark := .blank (by decide) (.comment _)
  refine ⟨hlines, hone, hremark, fun k hk => ?_⟩
  obtain ⟨hlt, hneutral, hattr⟩ : k < lines.length ∧
      Carry.neutral.after (lines.take k) = .neutral ∧
      (ImportSearch.after 1 (.between 0) (Row.ofLines .neutral (lines.take k))).attributes = 0 := by
    simp only [List.mem_cons, List.not_mem_nil, or_false] at hk
    rcases hk with rfl | rfl | rfl | rfl <;> decide
  exact ⟨hlt, hneutral, hattr, identify_inserted_remark .standard .lf lines k remark hlt hlines hone
    hremark hneutral hattr⟩

end CodeFolding
