import CodeFolding.Proofs.DeclarationGrammar
import CodeFolding.Proofs.Interior
import CodeFolding.Proofs.LineParts

/-!
Remarks: blanks with a line comment behind them, or without one.

A remark behind a line has no live characters but blanks. The passes over the raw text may find more
in it, the end of a scope or a keyword, but no keyword that is live; so neither pass tells the line
from the one without the remark.
-/

set_option autoImplicit false

namespace CodeFolding

inductive Remark : List Char → Prop where
  | none : Remark []
  | comment (text : List Char) : Remark ('/' :: '/' :: text)
  | blank {c : Char} {rest : List Char} : isBlank c = true → Remark rest → Remark (c :: rest)

/-- A cell in which neither pass finds anything. -/
def Cell.Idle (c : Cell) : Prop := c.isLive = true → isBlank c.char = true

/-! ## Text in front of a blank -/

section Blank

variable {tail text w : List Char}

/-- A word without blanks does not reach over one. -/
theorem prefix_append_blank (htail : ∀ c ∈ tail.head?, isBlank c = true)
    (hw : ∀ c ∈ w, isBlank c = false) : w <+: text ++ tail ↔ w <+: text := by
  refine ⟨fun h => ?_, fun h => h.trans (List.prefix_append text tail)⟩
  induction text generalizing w with
  | nil =>
    cases w with
    | nil => exact List.prefix_rfl
    | cons d w =>
      cases tail with
      | nil => exact h
      | cons c tail =>
        obtain rfl := (List.cons_prefix_cons.1 h).1
        simp [hw d (by simp)] at htail
  | cons c text ih =>
    cases w with
    | nil => exact List.nil_prefix
    | cons d w =>
      obtain ⟨rfl, hrest⟩ := List.cons_prefix_cons.1 h
      exact List.cons_prefix_cons.2 ⟨rfl, ih (fun d hd => hw d (by simp [hd])) hrest⟩

theorem isWordChar_of_isBlank {c : Char} (h : isBlank c = true) : isWordChar c = false := by
  have hall : ∀ n ∈ blankTable.flatMap fun r => List.range' r.1 (r.2 - r.1 + 1),
      (letterTable.covers n || wordMarkTable.covers n) = false := by decide +kernel
  have hc := hall _ (toNat_of_isBlank h)
  simp only [Bool.or_eq_false_iff] at hc
  simp [isWordChar, isLetter, CharTable.has, hc]

theorem endsWord_append_blank (htail : ∀ c ∈ tail.head?, isBlank c = true) :
    endsWord (text ++ tail) = endsWord text := by
  cases text with
  | cons c text => rfl
  | nil =>
    cases tail with
    | nil => rfl
    | cons c tail => simp [endsWord, isWordChar_of_isBlank (htail c rfl)]

theorem keyword?_append_blank (htail : ∀ c ∈ tail.head?, isBlank c = true) :
    Declaration.keyword? (text ++ tail) = Declaration.keyword? text := by
  have hname : ∀ k : Kind, ∀ c ∈ k.name.toList, isBlank c = false := by
    intro k c hc
    have hall : (k.name.toList.all fun c => !isBlank c) = true := by cases k <;> decide
    simpa using List.all_eq_true.1 hall c hc
  ext k
  rw [Declaration.keyword?_eq_some, Declaration.keyword?_eq_some]
  refine and_congr_right fun _ => ⟨?_, ?_⟩
  · rintro ⟨rest, htext, hends⟩
    obtain ⟨rest', rfl⟩ := (prefix_append_blank htail (hname k)).1 ⟨rest, htext.symm⟩
    rw [List.append_assoc, List.append_cancel_left_eq] at htext
    rw [← htext, endsWord_append_blank htail] at hends
    exact ⟨rest', rfl, hends⟩
  · rintro ⟨rest, rfl, hends⟩
    exact ⟨rest ++ tail, List.append_assoc _ _ _, by rwa [endsWord_append_blank htail]⟩

end Blank

/-! ## The cells of a remark -/

section Cells

variable {tail : List Char} {m : Mode}

theorem Mode.code_step_of_isBlank {c : Char} (hc : isBlank c = true) (behind rest : List Char) :
    Mode.code.step behind c rest = (.code, .code) := by
  have hne : ∀ d, isBlank d = false → c ≠ d := fun d hd => ne_of_isBlank hc hd
  simp only [step, hne '/' (by decide), hne '"' (by decide), hne '\'' (by decide),
    hne 'r' (by decide), false_and, if_false]

theorem classifyFrom_lineComment (behind : List Char) (offset : Nat) (text : List Char) :
    (∀ c ∈ (classifyFrom behind offset .lineComment text).1, c.Idle) ∧
      (classifyFrom behind offset .lineComment text).2 = .lineComment := by
  induction text generalizing behind offset with
  | nil => simp [classifyFrom]
  | cons c rest ih => simpa [classifyFrom, Mode.step, Cell.Idle, Cell.isLive] using ih _ _

/-- Behind code or in a line comment a remark is idle and leaves nothing open. -/
theorem Remark.idle (h : Remark tail) (hm : m = .code ∨ m = .lineComment) (behind : List Char)
    (offset : Nat) : (∀ c ∈ (classifyFrom behind offset m tail).1, c.Idle) ∧
      ((classifyFrom behind offset m tail).2 = .code ∨
        (classifyFrom behind offset m tail).2 = .lineComment) := by
  rcases hm with rfl | rfl
  · induction h generalizing behind offset with
    | none => exact ⟨by simp [classifyFrom], .inl rfl⟩
    | comment text =>
      obtain ⟨hidle, hend⟩ := classifyFrom_lineComment ('/' :: behind) (offset + '/'.utf8Size)
        ('/' :: text)
      have hstep : Mode.code.step behind '/' ('/' :: text) = (.lineComment, .lineComment) := by
        simp [Mode.step]
      rw [classifyFrom, hstep]
      exact ⟨List.forall_mem_cons.2 ⟨by simp [Cell.Idle, Cell.isLive], hidle⟩, .inr hend⟩
    | blank hc _ ih =>
      obtain ⟨hidle, hend⟩ := ih (_ :: behind) (offset + _)
      rw [classifyFrom, Mode.code_step_of_isBlank hc]
      exact ⟨List.forall_mem_cons.2 ⟨fun _ => hc, hidle⟩, hend⟩
  · obtain ⟨hidle, hend⟩ := classifyFrom_lineComment behind offset tail
    exact ⟨hidle, .inr hend⟩

/-- A remark behind a line that leaves nothing open only adds idle cells. -/
theorem classify_remark {s : Carry} {line : List Char} (hs : s.Plain) (h : Remark tail)
    (hgap : line = [] ∨ ∀ c ∈ tail.head?, isBlank c = true)
    (hend : (classify s line).2 = .neutral) :
    ∃ extra, (classify s (line ++ tail)).1 = (classify s line).1 ++ extra ∧
      (∀ c ∈ extra, c.Idle) ∧ (classify s (line ++ tail)).2 = .neutral := by
  have hapart : (Mode.ofCarry s).Apart [] tail line := by
    rcases hgap with rfl | hblank
    · trivial
    · cases tail with
      | nil => exact Mode.apart_nil
      | cons w tail =>
        have hrun := congrArg Prod.snd (classifyFrom_run [] 0 (.ofCarry s) line)
        exact Mode.apart_of_blank_next (hblank w rfl) (hs.sound line) (hrun ▸ hend)
  have hparts := classifyFrom_append hapart 0
  obtain ⟨hidle, hmode⟩ := h.idle (mode_of_neutral hs hend)
    (line.reverse ++ []) (0 + Utf8.byteLength line)
  refine ⟨_, congrArg Prod.fst hparts, hidle, ?_⟩
  rw [classify, hparts]
  rcases hmode with hmode | hmode
  · exact congrArg Mode.carry hmode
  · exact congrArg Mode.carry hmode

end Cells

/-- The row `r'` is the row `r` with a remark behind it, which has the cells `extra`. -/
structure Row.Remarked (tail : List Char) (extra : List Cell) (r r' : Row) : Prop where
  left : r.Read
  right : r'.Read
  remark : Remark tail
  gap : r.text = [] ∨ ∀ c ∈ tail.head?, isBlank c = true
  text : r'.text = r.text ++ tail
  before : r'.before = r.before
  cells : r'.cells = r.cells ++ extra
  idle : ∀ c ∈ extra, c.Idle

/-! ## Imports -/

namespace Cell

variable {extra : List Cell}

theorem Idle.ne_of_isLive {c : Cell} (h : c.Idle) (hlive : c.isLive = true) {char : Char}
    (hchar : isBlank char = false) : c.char ≠ char := ne_of_isBlank (h hlive) hchar

theorem statementDepth_idle (hidle : ∀ c ∈ extra, c.Idle) (depth : Int32) :
    statementDepth depth extra = some depth := by
  induction extra with
  | nil => rfl
  | cons c extra ih =>
    have hrest := ih fun d hd => hidle d (by simp [hd])
    cases hlive : c.isLive with
    | false => simpa [statementDepth, hlive] using hrest
    | true =>
      have hne : ∀ d, isBlank d = false → c.char ≠ d := fun d hd =>
        (hidle c (by simp)).ne_of_isLive hlive hd
      simpa [statementDepth, hlive, hne '{' (by decide), hne '}' (by decide), hne ';' (by decide)]
        using hrest

theorem fromUse?_idle (hidle : ∀ c ∈ extra, c.Idle) (before : Option Char) :
    fromUse? before extra = none := by
  induction extra generalizing before with
  | nil => rfl
  | cons c extra ih =>
    have hstarts : startsUse before (c :: extra) = false := by
      rw [Bool.eq_false_iff, ne_eq, startsUse_iff]
      intro hgiven
      obtain ⟨u, s, e, rest, hcells, hu, -, -, hlive, -⟩ := hgiven
      obtain ⟨rfl, -⟩ := List.cons.inj hcells
      exact (hidle c (by simp)).ne_of_isLive hlive (by decide) hu
    rw [fromUse?, hstarts, if_neg Bool.false_ne_true]
    exact ih (fun d hd => hidle d (by simp [hd])) _

theorem startsUse_append {cells : List Cell} (hne : cells ≠ [])
    (hextra : ∀ c ∈ extra.head?, isBlank c.char = true) (before : Option Char) :
    startsUse before (cells ++ extra) = startsUse before cells := by
  match cells, extra with
  | [], _ => exact absurd rfl hne
  | cells, [] => rw [List.append_nil]
  | [u], x :: more =>
    have hx : x.char ≠ 's' := ne_of_isBlank (hextra x rfl) (by decide)
    cases more <;> simp [startsUse, hx]
  | [u, s], x :: more =>
    have hx : x.char ≠ 'e' := ne_of_isBlank (hextra x rfl) (by decide)
    simp [startsUse, hx]
  | [u, s, e], x :: more => simp [startsUse, hextra x rfl]
  | u :: s :: e :: c :: rest, _ :: _ => rfl

theorem fromUse?_append (hidle : ∀ c ∈ extra, c.Idle)
    (hextra : ∀ c ∈ extra.head?, isBlank c.char = true) (before : Option Char) (cells : List Cell) :
    fromUse? before (cells ++ extra) = (fromUse? before cells).map (· ++ extra) := by
  induction cells generalizing before with
  | nil => exact fromUse?_idle hidle before
  | cons c rest ih =>
    have hstarts := startsUse_append (List.cons_ne_nil c rest) hextra before
    rw [List.cons_append] at hstarts ⊢
    rw [fromUse?, fromUse?, hstarts, ih]
    split <;> rfl

end Cell

theorem Nesting.steps_blanks {policy : Policy} {n : Nat} {owned : Bool} (s : Nesting)
    (front : List Char) {back : List Char} (h : ∀ c ∈ back, isBlank c = true) :
    s.steps policy n owned (front ++ back) = s.steps policy n owned front := by
  induction front generalizing s with
  | cons c front ih => rw [List.cons_append, steps, steps, ih]
  | nil =>
    induction back with
    | nil => rfl
    | cons c back ih =>
      have hc := h c (by simp)
      have hopen : c ≠ '{' := ne_of_isBlank hc (by decide)
      have hclose : c ≠ '}' := ne_of_isBlank hc (by decide)
      have hstep : s.step policy n owned c = (s, none) := by simp [step, hopen, hclose]
      rw [List.nil_append] at ih ⊢
      simp only [steps, hstep, ih fun d hd => h d (by simp [hd]), Option.toList_none,
        List.nil_append]

namespace Row

variable {r r' : Row} {tail : List Char} {extra : List Cell}

theorem Remarked.chars (h : r.Remarked tail extra r') : extra.map (·.char) = tail := by
  have hchars := h.right.chars
  rwa [h.cells, h.text, List.map_append, h.left.chars, List.append_cancel_left_eq] at hchars

theorem Remarked.statementDepth (h : r.Remarked tail extra r') (cells : List Cell) (depth : Int32) :
    Cell.statementDepth depth (cells ++ extra) = Cell.statementDepth depth cells := by
  rw [Cell.statementDepth_append]
  cases Cell.statementDepth depth cells with
  | none => rfl
  | some d => exact Cell.statementDepth_idle h.idle d

theorem Remarked.fromUse? (h : r.Remarked tail extra r') :
    Cell.fromUse? none r'.cells = (Cell.fromUse? none r.cells).map (· ++ extra) := by
  rw [h.cells]
  rcases h.gap with hempty | hblank
  · have hcells : r.cells = [] := by
      rw [← List.length_eq_zero_iff, h.left.length, hempty, List.length_nil]
    rw [hcells, List.nil_append, Cell.fromUse?_idle h.idle]
    rfl
  · refine Cell.fromUse?_append h.idle (fun c hc => hblank c.char ?_) none r.cells
    rw [← h.chars, List.head?_map, Option.mem_def.1 hc]
    rfl

/-- A remark is no attribute, and does not make one of the text in front of it. -/
theorem Remarked.isAttribute (h : r.Remarked tail extra r') : r'.isAttribute = r.isAttribute := by
  have hremark : ∀ {rest : List Char}, Remark rest → ¬ ['#', '['] <+: trimStart rest := by
    intro rest hrest
    induction hrest with
    | none => simp [trimStart]
    | comment text =>
      have hslash : trimStart ('/' :: '/' :: text) = '/' :: '/' :: text := rfl
      simp [hslash]
    | blank hc _ ih => simpa [trimStart, hc] using ih
  have hprefix : ['#', '['] <+: trimStart (r.text ++ tail) ↔ ['#', '['] <+: trimStart r.text := by
    rw [trimStart, trimStart, List.dropWhile_append]
    split
    · rename_i hempty
      rw [List.isEmpty_iff.1 hempty]
      exact iff_of_false (hremark h.remark) (by simp)
    · rename_i hsome
      have htext : r.text ≠ [] := by
        intro hnil
        simp [hnil] at hsome
      refine prefix_append_blank (h.gap.resolve_left htext) ?_
      simp only [List.forall_mem_cons, List.not_mem_nil, false_imp_iff, implies_true, and_true]
      decide
  rw [Row.isAttribute, Row.isAttribute, h.before, h.text, Bool.eq_iff_iff]
  simp only [Bool.and_eq_true, List.isPrefixOf_iff_prefix, hprefix]

theorem Remarked.use (h : r.Remarked tail extra r') :
    (Cell.fromUse? none r'.cells).map (Cell.statementDepth 0) =
      (Cell.fromUse? none r.cells).map (Cell.statementDepth 0) := by
  rw [h.fromUse?, Option.map_map]
  exact congrArg (Option.map · _) (funext fun cells => h.statementDepth cells 0)

/-! ## Blocks -/

theorem Remarked.blank_of_live (h : r.Remarked tail extra r') :
    ∀ c ∈ Cell.live extra, isBlank c = true := by
  intro c hc
  obtain ⟨cell, hcell, rfl⟩ := List.mem_map.1 hc
  obtain ⟨hmem, hlive⟩ := List.mem_filter.1 hcell
  exact h.idle cell hmem hlive

theorem Remarked.live (h : r.Remarked tail extra r') :
    Nesting.liveChars r' = Nesting.liveChars r ++ Cell.live extra := by
  rw [Nesting.liveChars, h.cells]
  exact Cell.live_append _ _

theorem Remarked.hasLive (h : r.Remarked tail extra r') {char : Char} (hc : isBlank char = false) :
    Cell.hasLive r'.cells char = Cell.hasLive r.cells char := by
  have hextra : (Cell.live extra).any (· == char) = false :=
    List.any_eq_false.2 fun c hmem => by simpa using ne_of_isBlank (h.blank_of_live c hmem) hc
  rw [hasLive_eq, hasLive_eq, h.live, List.any_append, hextra, Bool.or_false]

theorem Remarked.codeText (h : r.Remarked tail extra r') :
    Cell.codeText r'.cells = Cell.codeText r.cells := by
  have hextra : ∀ c ∈ extra.reverse, (!(c.isLive && !isBlank c.char)) = true := by
    intro c hc
    cases hlive : c.isLive with
    | false => rfl
    | true => simp [h.idle c (List.mem_reverse.1 hc) hlive]
  rw [Cell.codeText, Cell.codeText, h.cells, List.reverse_append,
    List.dropWhile_append_of_pos hextra]

theorem Remarked.live_iff (h : r.Remarked tail extra r') {i : Nat} (hi : i < r.text.length) :
    r'.Live i ↔ r.Live i := by
  rw [Live, Live, h.cells, List.getElem?_append_left (by rwa [h.left.length])]

/-- A live character of the remark is a blank. -/
theorem Remarked.lt_of_live (h : r.Remarked tail extra r') {i : Nat} (hlive : r'.Live i) {c : Char}
    (hc : r'.text[i]? = some c) (hblank : isBlank c = false) : i < r.text.length := by
  by_contra hlt
  obtain ⟨cell, hcell, hcode⟩ := hlive
  have hchar := h.right.get hcell
  rw [h.cells, List.getElem?_append_right (by rw [h.left.length]; omega)] at hcell
  have hidle := h.idle cell (List.mem_of_getElem? hcell) hcode
  obtain rfl : c = cell.char := Option.some.inj (hc.symm.trans hchar)
  simp [hidle] at hblank

open Declaration in
/-- A live keyword is found in front of a remark as it is found without it. -/
theorem Remarked.keyword (h : r.Remarked tail extra r') {i : Nat} (hi : i < r.text.length)
    {k : Kind} : keyword? (r'.text.drop i) = some k ∧ fromKeyword r'.text = r'.text.drop i ↔
      keyword? (r.text.drop i) = some k ∧ fromKeyword r.text = r.text.drop i := by
  have hne : r.text ≠ [] := List.ne_nil_of_length_pos (Nat.zero_lt_of_lt hi)
  have hkey : keyword? (r'.text.drop i) = keyword? (r.text.drop i) := by
    rw [h.text, List.drop_append_of_le_length (Nat.le_of_lt hi),
      keyword?_append_blank (h.gap.resolve_left hne)]
  have htake : r'.text.take i = r.text.take i := by
    rw [h.text, List.take_append_of_le_length (Nat.le_of_lt hi)]
  rw [hkey]
  refine and_congr_right fun hk => ?_
  rw [fromKeyword_eq_drop_iff hk, fromKeyword_eq_drop_iff (hkey.trans hk), htake]

open Declaration in
theorem Remarked.candidate (h : r.Remarked tail extra r') (n : Nat) (owned : Bool) :
    Nesting.candidate? n owned r' = Nesting.candidate? n owned r := by
  have hmode : r'.mode 0 = .code ↔ r.mode 0 = .code := by
    rw [mode_zero_eq_code, mode_zero_eq_code, h.before]
  ext kw
  rw [h.left.candidate?_eq_some, h.right.candidate?_eq_some, hmode]
  refine and_congr_right fun _ => and_congr_right fun _ => and_congr_right fun _ => ⟨?_, ?_⟩
  · rintro ⟨hkey, i, hfrom, hlive⟩
    rw [hfrom] at hkey
    -- a keyword begins with a letter, so it is not a blank of the remark
    obtain ⟨c, rest, hrest, hc⟩ := (lettered_of_keyword hkey).eq_cons
    have hget : r'.text[i]? = some c := by rw [← List.head?_drop, hrest]; rfl
    have hi := h.lt_of_live hlive hget (isBlank_of_mem_initials hc)
    obtain ⟨hkey, hfrom⟩ := (h.keyword hi).1 ⟨hkey, hfrom⟩
    exact ⟨hfrom ▸ hkey, i, hfrom, (h.live_iff hi).1 hlive⟩
  · rintro ⟨hkey, i, hfrom, hlive⟩
    rw [hfrom] at hkey
    obtain ⟨c, hc⟩ := hlive.char h.left
    have hi := (List.getElem?_eq_some_iff.1 hc).1
    obtain ⟨hkey, hfrom⟩ := (h.keyword hi).2 ⟨hkey, hfrom⟩
    exact ⟨hfrom ▸ hkey, i, hfrom, (h.live_iff hi).2 hlive⟩

theorem Remarked.agrees (h : r.Remarked tail extra r') : r'.Agrees r where
  isAttribute := h.isAttribute
  depth d := by rw [h.cells, h.statementDepth]
  use := h.use
  candidate := h.candidate
  steps policy n owned s := by rw [h.live, Nesting.steps_blanks s _ h.blank_of_live]
  brace := h.hasLive (by decide)
  continues := by rw [h.codeText]

end Row

/-- The row of a line with a remark behind it matches the row of the line. -/
theorem matches_remark {s : Carry} {line tail : List Char} (hs : s.Plain) (h : Remark tail)
    (hgap : line = [] ∨ ∀ c ∈ tail.head?, isBlank c = true)
    (hend : (classify s line).2 = .neutral) :
    Row.Matches ⟨line ++ tail, s, (classify s (line ++ tail)).1⟩ ⟨line, s, (classify s line).1⟩ ∧
      (classify s (line ++ tail)).2 = .neutral := by
  obtain ⟨extra, hcells, hidle, hcarry⟩ := classify_remark hs h hgap hend
  have hrow : Row.Remarked tail extra ⟨line, s, (classify s line).1⟩
      ⟨line ++ tail, s, (classify s (line ++ tail)).1⟩ :=
    ⟨⟨rfl, hs⟩, ⟨rfl, hs⟩, h, hgap, rfl, rfl, hcells, hidle⟩
  exact ⟨hrow.agrees.matches, hcarry⟩

end CodeFolding
