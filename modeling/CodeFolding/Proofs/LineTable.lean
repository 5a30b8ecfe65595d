import CodeFolding.Proofs.Access
import CodeFolding.Region.Imports

/-!
The table of the lines of import statements.

It has an entry for line 0 and for each line of a text, and the lines of one span after the other are
set in it, as far as the text has them. Setting them makes no fault, and then the table says of each
of its lines whether a span has it.
-/

set_option autoImplicit false

namespace CodeFolding.Checked

/-- The table with the lines of a statement, of `last` lines in all, set. -/
def setLines (last : Nat) (table : List Bool) (s : Span) : Checked (List Bool) :=
  (List.range' s.first (min s.last last + 1 - s.first)).foldlM (fun t line => replace t line true)
    table

/-- For each line, and for line 0, whether it belongs to a statement. -/
def lineTable (last : Nat) (spans : List Span) : Checked (List Bool) :=
  spans.foldlM (setLines last) (List.replicate (last + 1) false)

/-- A table for `last` lines says what `owns` says. -/
structure Table (last : Nat) (table : List Bool) (owns : Nat → Bool) : Prop where
  length : table.length = last + 1
  get : ∀ line ≤ last, table[line]?.getD false = owns line

theorem Table.setAll {last : Nat} {table : List Bool} {owns : Nat → Bool} (h : Table last table owns)
    (lines : List Nat) (hlines : ∀ line ∈ lines, line ≤ last) :
    ∃ table', lines.foldlM (fun t line => replace t line true) table = pure table' ∧
      Table last table' fun line => owns line || lines.contains line := by
  induction lines generalizing table owns with
  | nil => exact ⟨table, rfl, by simpa using h⟩
  | cons l lines ih =>
    have hl : l < table.length := by
      have := hlines l (by simp)
      rw [h.length]
      omega
    have hset : Table last (table.set l true) fun line => owns line || decide (line = l) := by
      refine ⟨by rw [List.length_set, h.length], fun line hline => ?_⟩
      have hget := h.get line hline
      rw [List.getElem?_set]
      by_cases heq : l = line
      · subst heq
        simp [hl]
      · simp [heq, hget, Ne.symm heq]
    obtain ⟨table', hfold, htable⟩ := ih hset fun line hline => hlines line (by simp [hline])
    refine ⟨table', ?_, ?_⟩
    · rw [List.foldlM_cons, replace_eq hl, pure_bind, hfold]
    · simpa [Bool.or_assoc] using htable

theorem Table.setLines {last : Nat} {table : List Bool} {owns : Nat → Bool}
    (h : Table last table owns) (s : Span) :
    ∃ table', setLines last table s = pure table' ∧
      Table last table' fun line => owns line || s.contains line := by
  obtain ⟨table', hfold, htable⟩ := h.setAll
    (List.range' s.first (min s.last last + 1 - s.first)) fun line hline => by
      rw [List.mem_range'_1] at hline
      omega
  refine ⟨table', hfold, htable.length, fun line hline => ?_⟩
  have hmem : (List.range' s.first (min s.last last + 1 - s.first)).contains line = s.contains line := by
    rw [Bool.eq_iff_iff, List.contains_iff_mem, List.mem_range'_1, Span.contains]
    simp only [Bool.and_eq_true, decide_eq_true_eq]
    omega
  rw [htable.get line hline, hmem]

theorem lineTable_eq (last : Nat) (spans : List Span) :
    ∃ table, lineTable last spans = pure table ∧ Table last table (ownsLine spans) := by
  have hfold : ∀ (table : List Bool) (owns : Nat → Bool), Table last table owns →
      ∃ table', spans.foldlM (setLines last) table = pure table' ∧
        Table last table' fun line => owns line || ownsLine spans line := by
    induction spans with
    | nil => exact fun table owns h => ⟨table, rfl, by simpa [ownsLine] using h⟩
    | cons s spans ih =>
      intro table owns h
      obtain ⟨next, hset, hnext⟩ := h.setLines s
      obtain ⟨table', hrest, htable⟩ := ih next _ hnext
      refine ⟨table', by rw [List.foldlM_cons, hset, pure_bind, hrest], ?_⟩
      simpa [ownsLine, Bool.or_assoc] using htable
  have hempty : Table last (List.replicate (last + 1) false) fun _ => false := by
    refine ⟨List.length_replicate, fun line hline => ?_⟩
    rw [List.getElem?_replicate, if_pos (by omega)]
    rfl
  obtain ⟨table, hspans, htable⟩ := hfold _ _ hempty
  exact ⟨table, hspans, by simpa using htable⟩

/-- For spans of a text the table is right about all lines, also those that the text does not have. -/
theorem exists_lineTable {last : Nat} {spans : List Span} (hlast : ∀ s ∈ spans, s.last ≤ last) :
    ∃ table, lineTable last spans = .ok table ∧
      ∀ line, table[line]?.getD false = ownsLine spans line := by
  obtain ⟨table, htable, hmarks⟩ := lineTable_eq last spans
  refine ⟨table, htable, fun line => ?_⟩
  by_cases hline : line ≤ last
  · exact hmarks.get line hline
  · have hnone : table[line]? = none := List.getElem?_eq_none (by rw [hmarks.length]; omega)
    rw [hnone, Option.getD_none, eq_comm, Bool.eq_false_iff]
    intro howned
    obtain ⟨s, hs, hin⟩ := List.any_eq_true.1 howned
    have := hlast s hs
    simp only [Span.contains, Bool.and_eq_true, decide_eq_true_eq] at hin
    omega

end CodeFolding.Checked
