import CodeFolding.Proofs.LineEnds
import CodeFolding.Proofs.Statements
import CodeFolding.Proofs.Twins

/-!
What the insides of comments and literals tell about the regions of a text.

Rows that are pairs agree on all that the two passes read of them: their live characters, their code
text, the `use` they carry, and their declaration. So the texts of such rows have the same regions.
Of the insides the regions depend on two characters and no others.
-/

set_option autoImplicit false

namespace CodeFolding

/-- A word without blanks ends a text if it ends the text without the blanks in front. -/
theorem suffix_trimStart {w text : List Char} (hw : ∀ c ∈ w, isBlank c = false) :
    w <:+ trimStart text ↔ w <:+ text := by
  obtain ⟨blanks, htext, hblanks⟩ := trimStart_spec text
  have hsuffix : trimStart text <:+ text := ⟨blanks, htext.symm⟩
  refine ⟨fun h => h.trans hsuffix, fun h => ?_⟩
  rcases List.suffix_or_suffix_of_suffix h hsuffix with h' | ⟨q, hq⟩
  · exact h'
  · obtain ⟨p, hp⟩ := h
    rw [← hq, ← List.append_assoc] at hp
    have hfront : p ++ q = blanks := List.append_cancel_right (hp.trans htext)
    cases q with
    | nil => exact ⟨[], by simpa using hq.symm⟩
    | cons c q =>
      have hblank := hblanks c (by simp [← hfront])
      have hnot := hw c (by simp [← hq])
      simp [hblank] at hnot

theorem continuesSignature_trimStart (text : List Char) :
    continuesSignature (trimStart text) = continuesSignature text := by
  have hall : (signatureEnds.all fun e => e.toList.all fun c => !isBlank c) = true := by decide
  have hblank : ∀ e ∈ signatureEnds, ∀ c ∈ e.toList, isBlank c = false := by
    intro e he c hc
    simpa using List.all_eq_true.1 (List.all_eq_true.1 hall e he) c hc
  refine Bool.eq_iff_iff.2 ?_
  simp only [continuesSignature, List.any_eq_true, List.isSuffixOf_iff_suffix]
  constructor
  · intro hgiven
    obtain ⟨e, he, h⟩ := hgiven
    exact ⟨e, he, (suffix_trimStart (hblank e he)).1 h⟩
  · intro hgiven
    obtain ⟨e, he, h⟩ := hgiven
    exact ⟨e, he, (suffix_trimStart (hblank e he)).2 h⟩

theorem forall₂_dropWhile {α : Type} {R : α → α → Prop} {p : α → Bool} {xs ys : List α}
    (h : List.Forall₂ R xs ys) (hp : ∀ x y, R x y → p x = p y) :
    List.Forall₂ R (xs.dropWhile p) (ys.dropWhile p) := by
  induction h with
  | nil => exact .nil
  | @cons x y xs ys hxy hrest ih =>
    cases hx : p x with
    | true => simpa [hx, ← hp x y hxy] using ih
    | false => simpa [hx, ← hp x y hxy] using List.Forall₂.cons hxy hrest

namespace Row

variable {r r' : Row} {i : Nat}

def SameCell (c c' : Cell) : Prop := c.isLive = c'.isLive ∧ (c.isLive = true → c.char = c'.char)

theorem Pair.cells (h : r.Pair r') : List.Forall₂ SameCell r.cells r'.cells := by
  rw [List.forall₂_iff_get]
  refine ⟨by rw [h.left.length, h.right.length, h.length], fun k hk hk' => ?_⟩
  have hc : r.cells[k]? = some r.cells[k] := List.getElem?_eq_getElem hk
  have hc' : r'.cells[k]? = some r'.cells[k] := List.getElem?_eq_getElem hk'
  have hlive := h.live_iff k
  simp only [Live, hc, hc', Option.some.injEq, exists_eq_left'] at hlive
  refine ⟨Bool.eq_iff_iff.2 hlive, fun hl => ?_⟩
  have hget := (h.get_of_live ⟨_, hc, hl⟩).1
  rw [← h.left.char, ← h.right.char, hc, hc'] at hget
  exact Option.some.inj hget

theorem live_eq {cells cells' : List Cell} (h : List.Forall₂ SameCell cells cells') :
    Cell.live cells = Cell.live cells' := by
  induction h with
  | nil => rfl
  | @cons c c' _ _ hc _ ih =>
    unfold Cell.live at ih ⊢
    cases hlive : c.isLive with
    | true => simp [hlive, ← hc.1, hc.2 hlive, ih]
    | false => simpa [hlive, ← hc.1] using ih

theorem Pair.liveChars (h : r.Pair r') : Nesting.liveChars r = Nesting.liveChars r' :=
  live_eq h.cells

theorem hasLive_eq (r : Row) (char : Char) :
    Cell.hasLive r.cells char = (Nesting.liveChars r).any (· == char) := by
  simp [Cell.hasLive, Nesting.liveChars, List.any_filter, Function.comp_def]

/-- A word behind which a live character stands is code, unless it ends a comment or a literal. -/
theorem Pair.ends (h : r.Pair r') {w : List Char} (hw : ∀ c ∈ w, c ∉ Mode.fences)
    (hlive : r.Live i) (hends : w <+: (r.text.take (i + 1)).reverse) :
    w <+: (r'.text.take (i + 1)).reverse := by
  induction w generalizing i with
  | nil => exact List.nil_prefix
  | cons x w ih =>
    obtain ⟨c, hc⟩ := hlive.char h.left
    have hc' : r'.text[i]? = some c := by rw [← (h.get_of_live hlive).1, hc]
    rw [List.take_add_one, hc, Option.toList_some, List.reverse_concat', List.cons_prefix_cons]
      at hends
    rw [List.take_add_one, hc', Option.toList_some, List.reverse_concat', List.cons_prefix_cons]
    refine ⟨hends.1, ?_⟩
    cases w with
    | nil => exact List.nil_prefix
    | cons y w =>
      cases i with
      | zero => simp at hends
      | succ k =>
        have hlt : k < r.text.length := by
          have := (List.getElem?_eq_some_iff.1 hc).1
          omega
        have hget := List.getElem?_eq_getElem hlt
        have hy : y = r.text[k] := by
          have := hends.2
          rw [List.take_add_one, hget, Option.toList_some, List.reverse_concat',
            List.cons_prefix_cons] at this
          exact this.1
        rcases h.left.live_or_fence hget (hlive.mode h.left).1 with hl | ⟨hfence, -⟩
        · exact ih (fun d hd => hw d (List.mem_cons_of_mem x hd)) hl hends.2
        · exact absurd hfence (hy ▸ hw y (by simp))

/-- The code text of both rows ends behind the same live character, if it is not empty. -/
theorem Pair.codeText (h : r.Pair r') :
    (Cell.codeText r.cells = [] ∧ Cell.codeText r'.cells = []) ∨
      ∃ k, r.Live k ∧ Cell.codeText r.cells = trimStart (r.text.take (k + 1)) ∧
        Cell.codeText r'.cells = trimStart (r'.text.take (k + 1)) := by
  let blank : Cell → Bool := fun c => !(c.isLive && !isBlank c.char)
  have htake : ∀ q : Row, q.Read → ∀ n, (q.cells.reverse.dropWhile blank).length = n →
      Cell.codeText q.cells = trimStart (q.text.take n) ∧
        (q.cells.reverse.dropWhile blank).reverse = q.cells.take n := by
    rintro q hq n rfl
    have hpre : (q.cells.reverse.dropWhile blank).reverse <+: q.cells := by
      rw [← List.reverse_suffix, List.reverse_reverse]
      exact List.dropWhile_suffix blank
    have hcut := List.prefix_iff_eq_take.1 hpre
    rw [List.length_reverse] at hcut
    refine ⟨?_, hcut⟩
    rw [← hq.chars, ← List.map_take, ← hcut]
    rfl
  have hsame : ∀ c c', SameCell c c' → blank c = blank c' := by
    rintro c c' ⟨hl, hc⟩
    cases hlive : c.isLive with
    | true => simp [blank, ← hl, hlive, hc hlive]
    | false => simp [blank, ← hl, hlive]
  have hlen := (forall₂_dropWhile (List.forall₂_reverse_iff.2 h.cells) hsame).length_eq
  obtain ⟨hleft, hcut⟩ := htake r h.left _ rfl
  obtain ⟨hright, -⟩ := htake r' h.right _ hlen.symm
  cases hdrop : r.cells.reverse.dropWhile blank with
  | nil =>
    rw [hdrop] at hleft hright
    exact .inl ⟨by simpa [trimStart] using hleft, by simpa [trimStart] using hright⟩
  | cons c rest =>
    rw [hdrop, List.length_cons] at hleft hright hcut
    refine .inr ⟨rest.length, ⟨c, ?_, ?_⟩, hleft, hright⟩
    · have hget := congrArg (·[rest.length]?) hcut
      simpa [List.getElem?_take] using hget.symm
    · have hnot := List.head?_dropWhile_not blank r.cells.reverse
      rw [hdrop] at hnot
      simp only [List.head?_cons, blank, Bool.not_eq_false', Bool.and_eq_true] at hnot
      exact hnot.1

theorem Pair.continues (h : r.Pair r') :
    continuesSignature (Cell.codeText r.cells) = continuesSignature (Cell.codeText r'.cells) := by
  have hfence : ∀ e ∈ signatureEnds, ∀ c ∈ e.toList.reverse, c ∉ Mode.fences := by
    simp [signatureEnds, Mode.fences]
  rcases h.codeText with ⟨hleft, hright⟩ | ⟨k, hlive, hleft, hright⟩
  · rw [hleft, hright]
  · rw [hleft, hright, continuesSignature_trimStart, continuesSignature_trimStart]
    refine Bool.eq_iff_iff.2 ?_
    simp only [continuesSignature, List.any_eq_true, List.isSuffixOf_iff_suffix,
      ← List.reverse_prefix]
    constructor
    · intro hgiven
      obtain ⟨e, he, hend⟩ := hgiven
      exact ⟨e, he, h.ends (hfence e he) hlive hend⟩
    · intro hgiven
      obtain ⟨e, he, hend⟩ := hgiven
      exact ⟨e, he, h.symm.ends (hfence e he) ((h.live_iff k).1 hlive) hend⟩

theorem statementDepth_eq {cells cells' : List Cell} (h : List.Forall₂ SameCell cells cells')
    (d : Int32) : Cell.statementDepth d cells = Cell.statementDepth d cells' := by
  induction h generalizing d with
  | nil => rfl
  | @cons c c' _ _ hc _ ih =>
    cases hlive : c.isLive with
    | true => simp only [Cell.statementDepth, ← hc.1, hc.2 hlive, ih]
    | false => simpa [Cell.statementDepth, hlive, ← hc.1] using ih d

def prev (r : Row) (i : Nat) : Option Char := (r.text.take i).getLast?

theorem prev_succ {c : Char} (hc : r.text[i]? = some c) : r.prev (i + 1) = some c := by
  simp [prev, List.take_add_one, hc]

theorem Read.cell (hr : r.Read) {c : Char} (hc : r.text[i]? = some c) :
    ∃ cell, r.cells[i]? = some cell ∧ cell.char = c := by
  rw [← hr.char, Option.map_eq_some_iff] at hc
  exact hc

theorem Read.get (hr : r.Read) {cell : Cell} (hc : r.cells[i]? = some cell) :
    r.text[i]? = some cell.char := by rw [← hr.char, hc, Option.map_some]

/-- A `use` stands alone at a place if the characters around it say so. -/
theorem Read.beginsUse_iff (hr : r.Read) : Cell.BeginsUse (r.prev i) (r.cells.drop i) ↔
    r.Live i ∧ r.Live (i + 2) ∧ r.text[i]? = some 'u' ∧ r.text[i + 1]? = some 's' ∧
      r.text[i + 2]? = some 'e' ∧
      (∀ c, r.prev i = some c → isBlank c = true ∨ c = '(' ∨ c = '[' ∨ c = '{') ∧
      ∀ c, r.text[i + 3]? = some c → isBlank c = true := by
  constructor
  · intro hgiven
    obtain ⟨u, s, e, rest, hcells, hu, hs, he, hlu, hle, hbefore, hafter⟩ := hgiven
    have hget : ∀ k, r.cells[i + k]? = (u :: s :: e :: rest)[k]? := by
      intro k
      rw [← List.getElem?_drop, hcells]
    refine ⟨⟨u, hget 0, hlu⟩, ⟨e, hget 2, hle⟩, ?_, ?_, ?_, hbefore, fun c hc => ?_⟩
    · rw [← hu]
      exact hr.get (hget 0)
    · rw [← hs]
      exact hr.get (hget 1)
    · rw [← he]
      exact hr.get (hget 2)
    · obtain ⟨cell, hcell, rfl⟩ := hr.cell hc
      refine hafter cell ?_
      rw [hget 3] at hcell
      simpa [List.head?_eq_getElem?] using hcell
  · intro hgiven
    obtain ⟨⟨u, hu, hlu⟩, ⟨e, he, hle⟩, hcu, hcs, hce, hbefore, hafter⟩ := hgiven
    obtain ⟨s, hs, hcs'⟩ := hr.cell hcs
    rw [hr.get hu, Option.some.injEq] at hcu
    rw [hr.get he, Option.some.injEq] at hce
    refine ⟨u, s, e, r.cells.drop (i + 3), ?_, hcu, hcs', hce, hlu, hle, hbefore, fun c hc => ?_⟩
    · rw [drop_of_get hu, drop_of_get hs, drop_of_get he]
    · rw [List.head?_drop] at hc
      exact hafter c.char (hr.get hc)

theorem Pair.beginsUse (h : r.Pair r') (huse : Cell.BeginsUse (r.prev i) (r.cells.drop i)) :
    Cell.BeginsUse (r'.prev i) (r'.cells.drop i) := by
  rw [h.left.beginsUse_iff] at huse
  obtain ⟨hlu, hle, hu, hs, he, hbefore, hafter⟩ := huse
  have hfront : r'.prev i = r.prev i := by
    cases i with
    | zero => rfl
    | succ k =>
      have hlt := (List.getElem?_eq_some_iff.1 hu).1
      have hc := List.getElem?_eq_getElem (Nat.lt_of_succ_lt hlt)
      rw [prev_succ hc, prev_succ (by rw [← h.get_before_live hlu, hc])]
  rw [h.right.beginsUse_iff, ← h.live_iff, ← h.live_iff, hfront, ← (h.get_of_live hlu).1,
    ← (h.get_of_live hlu).2, ← (h.get_of_live hle).1, ← (h.get_of_live hle).2]
  exact ⟨hlu, hle, hu, hs, he, hbefore, hafter⟩

theorem Pair.fromUse (h : r.Pair r') (k : Nat) (hk : i + k = r.cells.length) :
    (Cell.fromUse? (r.prev i) (r.cells.drop i)).map (Cell.statementDepth 0) =
      (Cell.fromUse? (r'.prev i) (r'.cells.drop i)).map (Cell.statementDepth 0) := by
  have hlen : r'.cells.length = r.cells.length := by
    rw [h.left.length, h.right.length, h.length]
  induction k generalizing i with
  | zero =>
    rw [List.drop_of_length_le (by omega), List.drop_of_length_le (by omega)]
    rfl
  | succ k ih =>
    obtain ⟨c, hc⟩ : ∃ c, r.cells[i]? = some c := ⟨_, List.getElem?_eq_getElem (by omega)⟩
    obtain ⟨c', hc'⟩ : ∃ c, r'.cells[i]? = some c := ⟨_, List.getElem?_eq_getElem (by omega)⟩
    have huse : Cell.startsUse (r.prev i) (r.cells.drop i) =
        Cell.startsUse (r'.prev i) (r'.cells.drop i) := by
      rw [Bool.eq_iff_iff, Cell.startsUse_iff, Cell.startsUse_iff]
      exact ⟨h.beginsUse, h.symm.beginsUse⟩
    have hdepth := statementDepth_eq (List.forall₂_drop i h.cells) 0
    rw [drop_of_get hc, drop_of_get hc'] at huse hdepth ⊢
    rw [Cell.fromUse?, Cell.fromUse?, huse, ← prev_succ (h.left.get hc), ← prev_succ (h.right.get hc')]
    split
    · simpa using hdepth
    · exact ih (by omega)

theorem Pair.isAttribute (h : r.Pair r') (hattr : r.isAttribute = true) :
    r'.isAttribute = true := by
  rw [isAttribute_iff, ← mode_zero_eq_code] at hattr ⊢
  obtain ⟨hcode, blanks, rest, htext, hblanks⟩ := hattr
  have hq : quiet none (blanks ++ ['#', '[']) = true :=
    quiet_append (quiet_blanks hblanks) (by decide)
  have hsplit : r.text.drop 0 = (blanks ++ ['#', '[']) ++ rest := by simp [htext]
  have hs := h.sync_of_live ((h.left.quiet_code hcode hsplit hq).2 0 (by simp))
  obtain ⟨t, ht, -⟩ := (h.alike hs).split hq hsplit
  exact ⟨hs.2, blanks, t, by simpa using ht, hblanks⟩

/-- Rows of which both passes read the same. -/
structure Matches (r r' : Row) : Prop where
  search : ∀ (n : Nat) (s : ImportSearch), s.step n r = s.step n r'
  line : ∀ (policy : Policy) (n : Nat) (owned : Bool) (s : Nesting),
    s.line policy n owned r = s.line policy n owned r'

/-- Rows in which all that the passes look for is the same. -/
structure Agrees (r r' : Row) : Prop where
  isAttribute : r.isAttribute = r'.isAttribute
  depth : ∀ d, Cell.statementDepth d r.cells = Cell.statementDepth d r'.cells
  use : (Cell.fromUse? none r.cells).map (Cell.statementDepth 0) =
    (Cell.fromUse? none r'.cells).map (Cell.statementDepth 0)
  candidate : ∀ n owned, Nesting.candidate? n owned r = Nesting.candidate? n owned r'
  steps : ∀ (policy : Policy) n owned (s : Nesting),
    s.steps policy n owned (Nesting.liveChars r) = s.steps policy n owned (Nesting.liveChars r')
  brace : Cell.hasLive r.cells '{' = Cell.hasLive r'.cells '{'
  continues :
    continuesSignature (Cell.codeText r.cells) = continuesSignature (Cell.codeText r'.cells)

theorem Agrees.search (h : r.Agrees r') (n : Nat) (s : ImportSearch) : s.step n r = s.step n r' := by
  cases s with
  | within first depth => simp only [ImportSearch.step, h.depth]
  | between attributes =>
    have huse := h.use
    unfold ImportSearch.step
    cases hc : Cell.fromUse? none r.cells with
    | none =>
      cases hc' : Cell.fromUse? none r'.cells with
      | none => simp only [h.isAttribute]
      | some back => simp [hc, hc'] at huse
    | some back =>
      cases hc' : Cell.fromUse? none r'.cells with
      | none => simp [hc, hc'] at huse
      | some back' =>
        rw [hc, hc'] at huse
        simp only [Option.some.inj huse]

theorem Agrees.matches (h : r.Agrees r') : r.Matches r' where
  search := h.search
  line policy n owned s := by
    have hend : ∀ t : Nesting, t.endLine n r = t.endLine n r' := by
      intro t
      simp only [Nesting.endLine, h.brace, h.continues]
    simp only [Nesting.line, h.candidate, h.steps, hend]

theorem Pair.agrees (h : r.Pair r') : r.Agrees r' where
  isAttribute := Bool.eq_iff_iff.2 ⟨h.isAttribute, h.symm.isAttribute⟩
  depth := statementDepth_eq h.cells
  use := by simpa [prev] using h.fromUse (i := 0) r.cells.length (by omega)
  candidate := h.candidate
  steps policy n owned s := by rw [h.liveChars]
  brace := by rw [hasLive_eq, hasLive_eq, h.liveChars]
  continues := h.continues

theorem Pair.matches (h : r.Pair r') : r.Matches r' := h.agrees.matches

end Row

theorem spans_eq {rows rows' : List Row} (h : List.Forall₂ Row.Matches rows rows') (n : Nat)
    (s : ImportSearch) : s.spans n rows = s.spans n rows' := by
  induction h generalizing n s with
  | nil => rfl
  | cons hr _ ih => simp only [ImportSearch.spans, hr.search, ih]

theorem blocks_eq {rows rows' : List Row} (h : List.Forall₂ Row.Matches rows rows')
    (policy : Policy) (spans : List Span) (n : Nat) (s : Nesting) :
    s.blocks policy spans n rows = s.blocks policy spans n rows' := by
  induction h generalizing n s with
  | nil => rfl
  | cons hr _ ih => simp only [Nesting.blocks, hr.line, ih]

/-- Texts whose rows match have the same regions. -/
theorem identify_eq_of_matches {a b : List Char}
    (h : List.Forall₂ Row.Matches (rowsOf a) (rowsOf b)) (policy : Policy) :
    identify policy a = identify policy b := by
  simp only [identify, importSpans, blockRegions, spans_eq h, blocks_eq h]

theorem identify_joinLines_eq {lines lines' : List (List Char)} (hlines : ∀ line ∈ lines, OneLine line)
    (hlines' : ∀ line ∈ lines', OneLine line)
    (h : List.Forall₂ Row.Matches (Row.ofLines .neutral lines) (Row.ofLines .neutral lines'))
    (policy : Policy) (e : LineEnd) :
    identify policy (joinLines e lines) = identify policy (joinLines e lines') := by
  have hlength : lines.length = lines'.length := by simpa using h.length_eq
  by_cases hne : lines = []
  · subst hne
    rw [List.eq_nil_of_length_eq_zero hlength.symm]
  · have hne' : lines' ≠ [] := by
      rw [← List.length_pos_iff, ← hlength]
      exact List.length_pos_iff.2 hne
    refine identify_eq_of_matches ?_ policy
    rwa [rowsOf, rowsOf, splitLines_joinLines hne hlines, splitLines_joinLines hne' hlines']

/-- Texts that differ only inside comments and literals, and there as `E` allows. -/
def Twins (E : Char → Char → Prop) (a b : List Char) : Prop :=
  List.Forall₂ (Row.Twin E) (rowsOf a) (rowsOf b)

theorem Row.text_mem {s : Carry} {lines : List (List Char)} {r : Row} (h : r ∈ Row.ofLines s lines) :
    r.text ∈ lines := by
  induction lines generalizing s with
  | nil => simp [Row.ofLines] at h
  | cons line rest ih =>
    rw [Row.ofLines] at h
    rcases List.mem_cons.1 h with rfl | h
    · exact List.mem_cons_self
    · exact List.mem_cons_of_mem line (ih h)

theorem read_of_mem_rowsOf {source : List Char} {r : Row} (h : r ∈ rowsOf source) :
    r.Read ∧ OneLine r.text :=
  ⟨Row.read_of_mem .start h, oneLine_of_mem_splitLines (Row.text_mem h)⟩

theorem Row.Twin.mono {E : Char → Char → Prop} {r r' : Row} (h : r.Twin E r')
    (hline : OneLine r.text) (hline' : OneLine r'.text)
    (hE : ∀ c d, E c d → OneLine [c, d] → SameStop c d) : r.Twin SameStop r' where
  roles := h.roles
  chars i c c' hc hc' := by
    rcases h.chars i c c' hc hc' with he | ⟨hin, hin', hcc⟩
    · exact .inl he
    · have hone : OneLine [c, c'] := by
        simp only [OneLine, List.mem_cons, List.not_mem_nil, or_false, forall_eq_or_imp, forall_eq]
        exact ⟨hline c (List.mem_of_getElem? hc), hline' c' (List.mem_of_getElem? hc')⟩
      exact .inr ⟨hin, hin', hE c c' hcc hone⟩

/-- Twins with their stops at the same places have the same regions. -/
theorem Twins.identify_eq {E : Char → Char → Prop} {a b : List Char} (h : Twins E a b)
    (hE : ∀ c d, E c d → OneLine [c, d] → SameStop c d) (policy : Policy) :
    identify policy a = identify policy b := by
  rw [Twins, List.forall₂_iff_get] at h
  refine identify_eq_of_matches (List.forall₂_iff_get.2 ⟨h.1, fun i hi hi' => ?_⟩) policy
  obtain ⟨hread, hline⟩ := read_of_mem_rowsOf (List.get_mem (rowsOf a) ⟨i, hi⟩)
  obtain ⟨hread', hline'⟩ := read_of_mem_rowsOf (List.get_mem (rowsOf b) ⟨i, hi'⟩)
  have hpair : Row.Pair _ _ := ⟨hread, hread', (h.2 i hi hi').mono hline hline' hE⟩
  exact hpair.matches

/-- A declaration with one character left open, and the end of its block in the next line. -/
def probe (pre post : List Char) (x : Char) : List Char := (pre ++ x :: post) ++ ['\n', '}']

def probeRow (pre post : List Char) (x : Char) : Row :=
  ⟨pre ++ x :: post, .neutral, (classify .neutral (pre ++ x :: post)).1⟩

/-- Any character in the gap between two texts stands inside a comment or a literal that is closed
behind it. -/
structure Gap (pre post : List Char) (roles : List Role) : Prop where
  front : OneLine pre
  back : OneLine post
  run : ∀ x, Mode.code.run [] (pre ++ x :: post) = (roles, .code)
  inside : ∀ x, (probeRow pre post x).Inside pre.length

namespace Gap

variable {pre post : List Char} {roles : List Role} {x y : Char}

theorem cells (h : Gap pre post roles) (x : Char) :
    (probeRow pre post x).cells.map (·.role) = roles ∧
      (classify .neutral (pre ++ x :: post)).2 = .neutral := by
  obtain ⟨hroles, hcarry⟩ := classify_run .neutral (pre ++ x :: post)
  have hrun : (Mode.ofCarry .neutral).run [] (pre ++ x :: post) = (roles, .code) := h.run x
  rw [hrun] at hroles hcarry
  exact ⟨hroles, hcarry⟩

theorem rows (h : Gap pre post roles) (hx : OneLine [x]) : rowsOf (probe pre post x) =
    [probeRow pre post x, ⟨['}'], .neutral, (classify .neutral ['}']).1⟩] := by
  have hline : OneLine (pre ++ x :: post) := h.front.append (hx.append h.back)
  rw [rowsOf, probe, splitLines_line hline, splitLines_last (by simp [OneLine])]
  simp only [Row.ofLines, (h.cells x).2]
  rfl

theorem read (x : Char) : (probeRow pre post x).Read := ⟨rfl, .inl rfl⟩

theorem twins (h : Gap pre post roles) {E : Char → Char → Prop} (hx : OneLine [x])
    (hy : OneLine [y]) (hE : E x y) : Twins E (probe pre post x) (probe pre post y) := by
  rw [Twins, h.rows hx, h.rows hy]
  refine .cons ⟨?_, fun i c c' hc hc' => ?_⟩ (.cons ⟨rfl, fun i c c' hc hc' => ?_⟩ .nil)
  · rw [(h.cells x).1, (h.cells y).1]
  · by_cases hi : i = pre.length
    · subst hi
      simp only [probeRow, List.getElem?_append_right (Nat.le_refl _), Nat.sub_self,
        List.getElem?_cons_zero, Option.some.injEq] at hc hc'
      subst hc hc'
      exact .inr ⟨h.inside _, h.inside _, hE⟩
    · refine .inl (Option.some.inj ?_)
      rw [← hc, ← hc']
      simp only [probeRow, List.getElem?_append]
      split
      · rfl
      · obtain ⟨k, hk⟩ : ∃ k, i - pre.length = k + 1 := ⟨i - pre.length - 1, by omega⟩
        rw [hk, List.getElem?_cons_succ, List.getElem?_cons_succ]
  · exact .inl (Option.some.inj (hc.symm.trans hc'))

theorem liveChars (h : Gap pre post roles) (x : Char) : Nesting.liveChars (probeRow pre post x) =
    (((pre ++ x :: post).zip roles).filter (·.2 == .code)).map (·.1) := by
  rw [← (h.cells x).1]
  conv_rhs => rw [← classify_chars .neutral (pre ++ x :: post)]
  rw [probeRow, List.zip_map', List.filter_map, List.map_map]
  rfl

/-- A text of this kind has no imports, and one block at most. -/
theorem regions (h : Gap pre post roles) (hx : OneLine [x]) (policy : Policy) {live : List Char}
    {o : Option Keyword} (hlive : Nesting.liveChars (probeRow pre post x) = live)
    (huse : 'u' ∉ live ∨ 'e' ∉ live) (hcand : Nesting.candidate? 1 false (probeRow pre post x) = o)
    (hsteps : Nesting.steps policy 1 false ⟨[], o⟩ live = (⟨[⟨1, o⟩], none⟩, [])) :
    identify policy (probe pre post x) =
      ((Brace.mk 1 o).block? policy 2 0).toList := by
  have hno : Cell.fromUse? none (probeRow pre post x).cells = none := by
    cases hfrom : Cell.fromUse? none (probeRow pre post x).cells with
    | none => rfl
    | some back =>
      obtain ⟨front, hcells, ⟨u, s, e, rest, rfl, hu, -, he, hlu, hle, -⟩, -⟩ :=
        Cell.fromUse?_spec hfrom
      have hmem : ∀ c : Cell, c ∈ u :: s :: e :: rest → c.isLive = true → c.char ∈ live := by
        intro c hc hl
        rw [← hlive, Nesting.liveChars, hcells]
        exact List.mem_map_of_mem (List.mem_filter.2 ⟨List.mem_append_right front hc, hl⟩)
      rcases huse with hn | hn
      · exact absurd (hu ▸ hmem u (by simp) hlu) hn
      · exact absurd (he ▸ hmem e (by simp) hle) hn
  have hspans : importSpans (rowsOf (probe pre post x)) = [] := by
    rw [h.rows hx, importSpans, ImportSearch.spans, ImportSearch.step, hno]
    rfl
  have hfirst : Nesting.empty.line policy 1 false (probeRow pre post x) = (⟨[⟨1, o⟩], none⟩, []) := by
    simp only [Nesting.line, Nesting.empty, hcand, Option.or_none, hlive, hsteps]
    rfl
  have hblocks : blockRegions policy [] (rowsOf (probe pre post x)) =
      ((Brace.mk 1 o).block? policy 2 0).toList := by
    rw [h.rows hx, blockRegions, Nesting.blocks, show ownsLine [] 1 = false from rfl, hfirst]
    cases o <;> rfl
  rw [identify, hspans, hblocks]
  cases (Brace.mk 1 o).block? policy 2 0 <;> simp [importRegion?]

end Gap

def opening : List Char := ['f', 'n', ' ', 'f', '(', ')', ' ', '{']

/-- A function with a comment in its scope. -/
def scopeFront : List Char := ['p', 'u', 'b', '(', '/', '*']

def scopeBack : List Char := '*' :: '/' :: ')' :: ' ' :: opening

/-- A function with an escape in the name of its interface. -/
def nameFront : List Char := ['e', 'x', 't', 'e', 'r', 'n', ' ', '"', '\\']

def nameBack : List Char := '"' :: ' ' :: opening

theorem gap_scope : Gap scopeFront scopeBack
    (List.replicate 4 .code ++ List.replicate 5 .blockComment ++ List.replicate 10 .code) where
  front := by simp [OneLine, scopeFront]
  back := by simp [OneLine, scopeBack, opening]
  run x := by
    -- no character ends the comment, for an asterisk follows it
    have hstep : ∀ behind, (Mode.blockComment none).step behind x scopeBack =
        (.blockComment, .blockComment none) := by simp [Mode.step, scopeBack]
    calc Mode.code.run [] (scopeFront ++ x :: scopeBack)
        = (List.replicate 4 .code ++ List.replicate 2 .blockComment ++
            ((Mode.blockComment none).run scopeFront.reverse (x :: scopeBack)).1,
          ((Mode.blockComment none).run scopeFront.reverse (x :: scopeBack)).2) := rfl
      _ = _ := by
        rw [Mode.run, hstep]
        rfl
  inside x := by
    have hmode : (probeRow scopeFront scopeBack x).mode scopeFront.length = .blockComment none := rfl
    have hdrop : (probeRow scopeFront scopeBack x).text.drop scopeFront.length = x :: scopeBack := rfl
    rw [Row.Inside, hmode, hdrop]
    intro hgiven
    obtain ⟨rest, hrest⟩ := hgiven
    simp [scopeBack] at hrest

theorem gap_name : Gap nameFront nameBack
    (List.replicate 7 .code ++ List.replicate 4 .literal ++ List.replicate 9 .code) where
  front := by simp [OneLine, nameFront]
  back := by simp [OneLine, nameBack, opening]
  run _ := rfl
  inside _ := trivial

theorem candidate_of_keyword {pre post : List Char} {roles : List Role} {x : Char} {i : Nat}
    {k : Kind} (h : Gap pre post roles)
    (hfrom : Declaration.fromKeyword (pre ++ x :: post) = (pre ++ x :: post).drop i)
    (hkey : Declaration.keyword? ((pre ++ x :: post).drop i) = some k)
    (hrole : roles[i]? = some .code) :
    Nesting.candidate? 1 false (probeRow pre post x) = some ⟨1, k⟩ := by
  have hlive : (probeRow pre post x).Live i := by
    rw [Row.live_iff_role, ← List.getElem?_map, (h.cells x).1, hrole]
  have hkey' : Declaration.keyword? (Declaration.fromKeyword (pre ++ x :: post)) = some k := by
    rw [hfrom, hkey]
  exact (Gap.read x).candidate?_eq_some.2
    ⟨rfl, (Row.mode_zero_eq_code _).2 rfl, rfl, hkey', i, hfrom, hlive⟩

theorem candidate_of_no_keyword {pre post : List Char} {x : Char}
    (hkey : Declaration.keyword? (Declaration.fromKeyword (pre ++ x :: post)) = none) :
    Nesting.candidate? 1 false (probeRow pre post x) = none := by
  cases hc : Nesting.candidate? 1 false (probeRow pre post x) with
  | none => rfl
  | some kw =>
    obtain ⟨-, -, -, h, -⟩ := (Gap.read x).candidate?_eq_some.1 hc
    rw [probeRow, hkey] at h
    simp at h

/-- A parenthesis in the comment takes the place of the one that ends the scope. -/
theorem identify_scope {x : Char} (hx : OneLine [x]) (policy : Policy) :
    identify policy (probe scopeFront scopeBack x) =
      if x = ')' then [] else [.block .fn 1 2 1 0 policy.fn] := by
  have hlive : Nesting.liveChars (probeRow scopeFront scopeBack x) = 'p' :: 'u' :: 'b' :: '(' :: ')' :: ' ' :: opening :=
    gap_scope.liveChars x
  split
  · rename_i heq
    subst heq
    exact gap_scope.regions hx policy hlive (.inr (by decide)) (candidate_of_no_keyword rfl) rfl
  · rename_i hne
    have hscope : Declaration.after? "pub".toList (scopeFront ++ x :: scopeBack) =
        some ('(' :: '/' :: '*' :: x :: scopeBack) := rfl
    have hstop : Declaration.afterStop? ')' ('/' :: '*' :: x :: scopeBack) =
        some (' ' :: opening) := by simp [Declaration.afterStop?, hne, scopeBack]
    have hvisible : Declaration.visibility? (scopeFront ++ x :: scopeBack) =
        some opening := by
      rw [Declaration.visibility?_scope hscope, hstop]
      rfl
    have htrim : trimStart (scopeFront ++ x :: scopeBack) = scopeFront ++ x :: scopeBack := rfl
    have hfrom : Declaration.fromKeyword (scopeFront ++ x :: scopeBack) = opening := by
      rw [Declaration.fromKeyword_eq, htrim, hvisible]
      rfl
    exact gap_scope.regions hx policy hlive (.inr (by decide))
      (candidate_of_keyword (i := 11) (k := .fn) gap_scope hfrom rfl rfl) rfl

theorem identify_name {x : Char} (hx : OneLine [x]) (policy : Policy) :
    identify policy (probe nameFront nameBack x) =
      if x = '"' then [] else [.block .fn 1 2 1 0 policy.fn] := by
  have hlive : Nesting.liveChars (probeRow nameFront nameBack x) = 'e' :: 'x' :: 't' :: 'e' :: 'r' :: 'n' :: ' ' :: ' ' :: opening :=
    gap_name.liveChars x
  split
  · rename_i heq
    subst heq
    exact gap_name.regions hx policy hlive (.inl (by decide)) (candidate_of_no_keyword rfl) rfl
  · rename_i hne
    have hforeign : (Declaration.after? "extern".toList (nameFront ++ x :: nameBack)).bind
        Declaration.afterBlanks? = some ('"' :: '\\' :: x :: nameBack) := rfl
    have hstop : Declaration.afterStop? '"' ('\\' :: x :: nameBack) =
        some (' ' :: opening) := by simp [Declaration.afterStop?, hne, nameBack]
    have hname : Declaration.interfaceName? ('"' :: '\\' :: x :: nameBack) =
        some opening := by
      rw [Declaration.interfaceName?, hstop]
      rfl
    have hstart : Declaration.fromKeyword (nameFront ++ x :: nameBack) =
        Declaration.fromInterface (nameFront ++ x :: nameBack) := rfl
    have hfrom : Declaration.fromKeyword (nameFront ++ x :: nameBack) = opening := by
      rw [hstart, Declaration.fromInterface_some hforeign, hname]
      rfl
    exact gap_name.regions hx policy hlive (.inl (by decide))
      (candidate_of_keyword (i := 12) (k := .fn) gap_name hfrom rfl rfl) rfl

/-- Of the insides of comments and literals the regions of a text depend on where the closing
parentheses and the double quotes stand, and on nothing else. -/
theorem identify_twins_iff (E : Char → Char → Prop) :
    (∀ a b, Twins E a b → ∀ policy, identify policy a = identify policy b) ↔
      ∀ c d, E c d → OneLine [c, d] → SameStop c d := by
  refine ⟨fun h c d hE hone => ?_, fun hE a b h policy => h.identify_eq hE policy⟩
  have hc : OneLine [c] := fun e he => hone e (by simp_all)
  have hd : OneLine [d] := fun e he => hone e (by simp_all)
  have hscope := h _ _ (gap_scope.twins hc hd hE) .standard
  have hname := h _ _ (gap_name.twins hc hd hE) .standard
  rw [identify_scope hc, identify_scope hd] at hscope
  rw [identify_name hc, identify_name hd] at hname
  constructor
  · by_cases hcp : c = ')' <;> by_cases hdp : d = ')' <;> simp_all
  · by_cases hcq : c = '"' <;> by_cases hdq : d = '"' <;> simp_all

/-- The inside of a comment can hide a declaration. -/
theorem hidden_declaration :
    ∃ a b, a = "pub(/*)*/) fn f() \x7b\n\x7d".toList ∧ b = "pub(/*x*/) fn f() \x7b\n\x7d".toList ∧
      Twins (fun _ _ => True) a b ∧ identify .standard a = [] ∧
      identify .standard b = [.block .fn 1 2 1 0 true] := by
  have hp : OneLine [')'] := by simp [OneLine]
  have hx : OneLine ['x'] := by simp [OneLine]
  exact ⟨_, _, rfl, rfl, gap_scope.twins hp hx trivial, identify_scope hp .standard,
    identify_scope hx .standard⟩

end CodeFolding
