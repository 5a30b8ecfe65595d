import Mathlib.Data.List.TakeWhile
import CodeFolding.Proofs.BlockText
import CodeFolding.Proofs.Interior
import CodeFolding.Proofs.LineEnds
import CodeFolding.Proofs.LineParts

/-!
Blanks in front of the lines of a text.

Whatever is open before a line, blanks leave it as it is, so behind them the line is read as it was,
with its cells further on. Neither pass tells such a line from the one without the blanks, and the
regions of a text do not depend on its indentation.
-/

set_option autoImplicit false

namespace CodeFolding

/-- Blanks that end no line. -/
def Indent (pad : List Char) : Prop := OneLine pad ∧ ∀ c ∈ pad, isBlank c = true

theorem Indent.idle {pad : List Char} (h : Indent pad) : ∀ c ∈ pad, isIdle c = true := by
  intro c hc
  have hblank := h.2 c hc
  rw [isIdle_iff]
  refine ⟨(h.1 c hc).1, (h.1 c hc).2, ?_, ne_of_isBlank hblank rfl, ne_of_isBlank hblank rfl⟩
  simp only [Mode.fences, List.mem_cons, List.not_mem_nil, or_false, not_or]
  exact ⟨ne_of_isBlank hblank rfl, ne_of_isBlank hblank rfl, ne_of_isBlank hblank rfl⟩

/-! ## The cells of an indented line -/

section Lines

variable {pad line : List Char} {m : Mode} {s : Carry}

/-- A mode that blanks do not end. -/
def Mode.Lasting (m : Mode) : Prop := m.Settled ∧ ∀ rest, m.Sound rest

theorem Carry.Plain.lasting (h : s.Plain) : (Mode.ofCarry s).Lasting := by
  rcases h with rfl | rfl | ⟨d, rfl, hd⟩
  · exact ⟨trivial, fun _ => trivial⟩
  · exact ⟨trivial, fun _ => rfl⟩
  · exact ⟨trivial, fun _ => hd⟩

theorem quietChar_of_isBlank {c : Char} (h : isBlank c = true) : quietChar none c = true := by
  have hquiet : quiet none [c] = true := quiet_blanks (by simpa using h)
  simpa [quiet] using hquiet

theorem classifyFrom_blanks (hpad : ∀ c ∈ pad, isBlank c = true) (hm : m.Lasting)
    (behind : List Char) (offset : Nat) (line : List Char) :
    ∃ front, front.map (·.char) = pad ∧
      (∀ c ∈ front, c.offset < offset + Utf8.byteLength pad) ∧
      classifyFrom behind offset m (pad ++ line) =
        (front ++ (classifyFrom (pad.reverse ++ behind) (offset + Utf8.byteLength pad) m line).1,
          (classifyFrom (pad.reverse ++ behind) (offset + Utf8.byteLength pad) m line).2) := by
  induction pad generalizing behind offset with
  | nil => exact ⟨[], rfl, by simp, rfl⟩
  | cons c pad ih =>
    have hquiet := quietChar_of_isBlank (hpad c (by simp))
    have hstep : (m.step behind c (pad ++ line)).2 = m :=
      (Mode.step_quiet hm.1 (hm.2 _) hquiet (by simp)).1
    obtain ⟨front, hchars, hoffsets, hrest⟩ :=
      ih (fun d hd => hpad d (by simp [hd])) (c :: behind) (offset + c.utf8Size)
    have hpos := c.utf8Size_pos
    refine ⟨⟨offset, c, (m.step behind c (pad ++ line)).1⟩ :: front, by simp [hchars], ?_, ?_⟩
    · rw [List.forall_mem_cons, Utf8.byteLength]
      exact ⟨by simp only; omega, fun d hd => by have := hoffsets d hd; omega⟩
    · simp only [List.cons_append, classifyFrom, hstep, hrest, Utf8.byteLength, List.reverse_cons,
        List.append_assoc, List.nil_append, ← Nat.add_assoc]

theorem classify_indent (hpad : ∀ c ∈ pad, isBlank c = true) (hs : s.Plain) (line : List Char) :
    ∃ front, front.map (·.char) = pad ∧ (∀ c ∈ front, c.offset < Utf8.byteLength pad) ∧
      (classify s (pad ++ line)).1 =
        front ++ (classify s line).1.map (Cell.shift (Utf8.byteLength pad)) ∧
      (classify s (pad ++ line)).2 = (classify s line).2 := by
  obtain ⟨front, hchars, hoffsets, hrest⟩ := classifyFrom_blanks hpad hs.lasting [] 0 line
  have hblank : ∀ c ∈ pad.reverse.head?, isBlank c = true := fun c hc =>
    hpad c (List.mem_reverse.1 (List.mem_of_mem_head? hc))
  have hshift := classifyFrom_shift hblank (Utf8.byteLength pad) [] 0 (Mode.ofCarry s) line
  rw [List.nil_append, Nat.add_zero] at hshift
  rw [List.append_nil, Nat.zero_add, hshift] at hrest
  rw [Nat.zero_add] at hoffsets
  exact ⟨front, hchars, hoffsets, by rw [classify, hrest]; rfl, by rw [classify, hrest]; rfl⟩

end Lines

/-- The row `r'` is the row `r` behind blanks, which have the cells `front`. -/
structure Row.Indented (pad : List Char) (front : List Cell) (r r' : Row) : Prop where
  indent : Indent pad
  text : r'.text = pad ++ r.text
  before : r'.before = r.before
  cells : r'.cells = front ++ r.cells.map (Cell.shift (Utf8.byteLength pad))
  chars : front.map (·.char) = pad
  offsets : ∀ c ∈ front, c.offset < Utf8.byteLength pad

/-! ## Imports -/

namespace Cell

theorem statementDepth_shift (d : Nat) (depth : Int32) (cells : List Cell) :
    statementDepth depth (cells.map (shift d)) = statementDepth depth cells := by
  induction cells generalizing depth with
  | nil => rfl
  | cons c rest ih => simp only [List.map_cons, statementDepth, shift_isLive, shift_char, ih]

theorem statementDepth_blanks {front : List Cell} (hfront : ∀ c ∈ front, isBlank c.char = true)
    (depth : Int32) (cells : List Cell) :
    statementDepth depth (front ++ cells) = statementDepth depth cells := by
  induction front with
  | nil => rfl
  | cons c front ih =>
    have hc := hfront c (by simp)
    have hopen : c.char ≠ '{' := ne_of_isBlank hc (by decide)
    have hclose : c.char ≠ '}' := ne_of_isBlank hc (by decide)
    have hend : c.char ≠ ';' := ne_of_isBlank hc (by decide)
    simpa [statementDepth, hopen, hclose, hend] using ih fun d hd => hfront d (by simp [hd])

theorem startsUse_shift (d : Nat) (before : Option Char) (cells : List Cell) :
    startsUse before (cells.map (shift d)) = startsUse before cells := by
  match cells with
  | [] | [_] | [_, _] | [_, _, _] | _ :: _ :: _ :: _ :: _ => rfl

theorem fromUse?_shift (d : Nat) (before : Option Char) (cells : List Cell) :
    fromUse? before (cells.map (shift d)) = (fromUse? before cells).map (·.map (shift d)) := by
  induction cells generalizing before with
  | nil => rfl
  | cons c rest ih =>
    have hstarts := startsUse_shift d before (c :: rest)
    rw [List.map_cons] at hstarts ⊢
    simp only [fromUse?, hstarts, ih, shift_char]
    split <;> rfl

/-- A blank in front is as good as the start of the line. -/
theorem fromUse?_of_blank {x : Char} (hx : isBlank x = true) (cells : List Cell) :
    fromUse? (some x) cells = fromUse? none cells := by
  have hallows : allowsUse (some x) = allowsUse none := by simp [allowsUse, hx]
  cases cells with
  | nil => rfl
  | cons c rest =>
    have hstarts : startsUse (some x) (c :: rest) = startsUse none (c :: rest) := by
      unfold startsUse
      split
      · rw [hallows]
      · rfl
    rw [fromUse?, fromUse?, hstarts]

theorem fromUse?_blanks {front : List Cell} (hfront : ∀ c ∈ front, isBlank c.char = true)
    (cells : List Cell) : fromUse? none (front ++ cells) = fromUse? none cells := by
  induction front with
  | nil => rfl
  | cons c front ih =>
    have hc := hfront c (by simp)
    have hu : c.char ≠ 'u' := ne_of_isBlank hc (by decide)
    have hstarts : startsUse none (c :: (front ++ cells)) = false := by
      unfold startsUse
      split
      · rename_i heq
        obtain ⟨rfl, -⟩ := List.cons.inj heq
        simp [hu]
      · rfl
    rw [List.cons_append, fromUse?, hstarts, if_neg Bool.false_ne_true, fromUse?_of_blank hc]
    exact ih fun d hd => hfront d (by simp [hd])

end Cell

namespace Row

variable {r r' : Row} {pad : List Char} {front : List Cell}

theorem Indented.blank (h : r.Indented pad front r') : ∀ c ∈ front, isBlank c.char = true :=
  fun c hc => h.indent.2 c.char (by rw [← h.chars]; exact List.mem_map_of_mem hc)

theorem Indented.isAttribute (h : r.Indented pad front r') : r'.isAttribute = r.isAttribute := by
  rw [Row.isAttribute, Row.isAttribute, h.before, h.text, trimStart_append h.indent.2]

theorem Indented.statementDepth (h : r.Indented pad front r') (depth : Int32) :
    Cell.statementDepth depth r'.cells = Cell.statementDepth depth r.cells := by
  rw [h.cells, Cell.statementDepth_blanks h.blank, Cell.statementDepth_shift]

theorem Indented.use (h : r.Indented pad front r') :
    (Cell.fromUse? none r'.cells).map (Cell.statementDepth 0) =
      (Cell.fromUse? none r.cells).map (Cell.statementDepth 0) := by
  rw [h.cells, Cell.fromUse?_blanks h.blank, Cell.fromUse?_shift, Option.map_map]
  exact congrArg (Option.map · _) (funext fun cells => Cell.statementDepth_shift _ 0 cells)

/-! ## Blocks -/

theorem Indented.live (h : r.Indented pad front r') :
    Nesting.liveChars r' = Cell.live front ++ Nesting.liveChars r := by
  have hshift : Cell.live (r.cells.map (Cell.shift (Utf8.byteLength pad))) = Cell.live r.cells := by
    simp [Cell.live, List.filter_map, Function.comp_def]
  rw [Nesting.liveChars, h.cells]
  exact (Cell.live_append _ _).trans (by rw [hshift]; rfl)

theorem Indented.idle (h : r.Indented pad front r') : ∀ c ∈ Cell.live front, isIdle c = true := by
  intro c hc
  obtain ⟨cell, hcell, rfl⟩ := List.mem_map.1 hc
  refine h.indent.idle cell.char ?_
  rw [← h.chars]
  exact List.mem_map_of_mem (List.mem_filter.1 hcell).1

theorem Indented.liveAt (h : r.Indented pad front r') (offset : Nat) :
    Cell.liveAt r'.cells (Utf8.byteLength pad + offset) = Cell.liveAt r.cells offset := by
  have hfront : front.find? (·.offset == Utf8.byteLength pad + offset) = none := by
    refine List.find?_eq_none.2 fun c hc => ?_
    have := h.offsets c hc
    simp only [beq_iff_eq]
    omega
  have hshift : (fun c => c.offset == Utf8.byteLength pad + offset) ∘ Cell.shift (Utf8.byteLength pad)
      = fun c => c.offset == offset := by
    funext c
    simp [Cell.shift]
  unfold Cell.liveAt
  rw [h.cells, List.find?_append, hfront, Option.none_or, List.find?_map, hshift]
  cases r.cells.find? (fun c => c.offset == offset) <;> rfl

theorem Indented.declaration (h : r.Indented pad front r') : Declaration.find? r'.text =
    (Declaration.find? r.text).map fun d => (Utf8.byteLength pad + d.1, d.2) := by
  have hfrom : Declaration.fromKeyword r'.text = Declaration.fromKeyword r.text := by
    rw [Declaration.fromKeyword_eq, Declaration.fromKeyword_eq, h.text, trimStart_append h.indent.2]
  obtain ⟨before, hbefore⟩ := Declaration.fromKeyword_suffix r.text
  have hlen := Utf8.byteLength_append before (Declaration.fromKeyword r.text)
  rw [hbefore] at hlen
  have hoffset : Utf8.byteLength r'.text - Utf8.byteLength (Declaration.fromKeyword r.text) =
      Utf8.byteLength pad +
        (Utf8.byteLength r.text - Utf8.byteLength (Declaration.fromKeyword r.text)) := by
    rw [h.text, Utf8.byteLength_append]
    omega
  simp only [Declaration.find?, hfrom, hoffset, Option.map_map]
  rfl

theorem Indented.candidate (h : r.Indented pad front r') (n : Nat) (owned : Bool) :
    Nesting.candidate? n owned r' = Nesting.candidate? n owned r := by
  simp only [Nesting.candidate?, h.before, h.declaration]
  cases Declaration.find? r.text with
  | none => rfl
  | some d => simp only [Option.map_some, h.liveAt]

theorem Indented.hasLive (h : r.Indented pad front r') {char : Char} (hc : isIdle char = false) :
    Cell.hasLive r'.cells char = Cell.hasLive r.cells char := by
  have hfront : (Cell.live front).any (· == char) = false := by
    refine List.any_eq_false.2 fun c hmem => ?_
    have hidle := h.idle c hmem
    rw [beq_iff_eq]
    rintro rfl
    simp [hidle] at hc
  rw [hasLive_eq, hasLive_eq, h.live, List.any_append, hfront, Bool.false_or]

theorem Indented.codeText (h : r.Indented pad front r') :
    Cell.codeText r'.cells = Cell.codeText r.cells := by
  let blank : Cell → Bool := fun c => !(c.isLive && !isBlank c.char)
  have hfront : ∀ c ∈ front.reverse, blank c = true := fun c hc => by
    simp [blank, h.blank c (List.mem_reverse.1 hc)]
  have hshift : (r.cells.map (Cell.shift (Utf8.byteLength pad))).reverse.dropWhile blank =
      (r.cells.reverse.dropWhile blank).map (Cell.shift (Utf8.byteLength pad)) := by
    rw [← List.map_reverse, List.dropWhile_map]
    rfl
  have hcut : (r'.cells.reverse.dropWhile blank).reverse.map (·.char) =
      if (r.cells.reverse.dropWhile blank).isEmpty then []
      else pad ++ (r.cells.reverse.dropWhile blank).reverse.map (·.char) := by
    rw [h.cells, List.reverse_append, List.dropWhile_append, hshift, List.isEmpty_map]
    split
    · rw [List.dropWhile_eq_nil_iff.2 hfront]
      rfl
    · simp [h.chars, Function.comp_def]
  have htrim := congrArg trimStart hcut
  refine htrim.trans ?_
  split
  · rename_i hempty
    have hnil := List.isEmpty_iff.1 hempty
    unfold Cell.codeText
    rw [show (r.cells.reverse.dropWhile blank) = [] from hnil]
    rfl
  · exact trimStart_append h.indent.2 _

theorem Indented.agrees (h : r.Indented pad front r') : r'.Agrees r where
  isAttribute := h.isAttribute
  depth := h.statementDepth
  use := h.use
  candidate := h.candidate
  steps policy n owned s := by rw [h.live, Nesting.steps_idle s h.idle]
  brace := h.hasLive (by decide)
  continues := by rw [h.codeText]

end Row

/-! ## Indented texts -/

theorem ofLines_indent {pads lines : List (List Char)} {s : Carry} (hs : Reachable s)
    (hlen : pads.length = lines.length) (hpads : ∀ pad ∈ pads, Indent pad) :
    List.Forall₂ Row.Matches (Row.ofLines s (List.zipWith (· ++ ·) pads lines))
      (Row.ofLines s lines) := by
  induction lines generalizing pads s with
  | nil => simp [Row.ofLines]
  | cons line rest ih =>
    cases pads with
    | nil => simp at hlen
    | cons pad pads =>
      obtain ⟨hpad, hrest⟩ := List.forall_mem_cons.1 hpads
      obtain ⟨front, hchars, hoffsets, hcells, hcarry⟩ := classify_indent hpad.2 hs.plain line
      have hrow : Row.Indented pad front ⟨line, s, (classify s line).1⟩
          ⟨pad ++ line, s, (classify s (pad ++ line)).1⟩ :=
        ⟨hpad, rfl, rfl, hcells, hchars, hoffsets⟩
      rw [List.zipWith_cons_cons, Row.ofLines, Row.ofLines, hcarry]
      exact .cons hrow.agrees.matches (ih (.line line hs) (by simpa using hlen) hrest)

/-- Blanks in front of its lines, whatever is open there, do not change the regions of a text. -/
theorem identify_indent (policy : Policy) (e : LineEnd) (pads lines : List (List Char))
    (hlen : pads.length = lines.length) (hlines : ∀ line ∈ lines, OneLine line)
    (hpads : ∀ pad ∈ pads, OneLine pad ∧ ∀ c ∈ pad, isBlank c = true) :
    identify policy (joinLines e (List.zipWith (· ++ ·) pads lines)) =
      identify policy (joinLines e lines) := by
  have hindented : ∀ line ∈ List.zipWith (· ++ ·) pads lines, OneLine line := by
    intro line hline
    obtain ⟨i, hi, rfl⟩ := List.getElem_of_mem hline
    rw [List.getElem_zipWith]
    exact (hpads _ (List.getElem_mem _)).1.append (hlines _ (List.getElem_mem _))
  exact identify_joinLines_eq hindented hlines (ofLines_indent .start hlen hpads) policy e

/-- Blanks of several scripts, in front of lines in a comment and in a literal too. -/
theorem identify_indent_in_comment :
    let pads := ["\t".toList, "\u3000 ".toList, "\u2028".toList, [], "\u0085".toList]
    let lines := ["use a::\x7b /* b".toList, "*/ c\x7d;".toList, "fn f() \x7b g(\"".toList,
      "\")".toList, "\x7d".toList]
    pads.length = lines.length ∧ (∀ line ∈ lines, OneLine line) ∧
      (∀ pad ∈ pads, OneLine pad ∧ ∀ c ∈ pad, isBlank c = true) ∧
      identify .standard (joinLines .lf (List.zipWith (· ++ ·) pads lines)) =
        identify .standard (joinLines .lf lines) := by
  intro pads lines
  have hlines : ∀ line ∈ lines, OneLine line := by simp [lines, OneLine]
  have hall : (pads.all fun pad => pad.all fun c => c != '\n' && c != '\r' && isBlank c) = true := by
    decide
  simp only [List.all_eq_true, Bool.and_eq_true, bne_iff_ne] at hall
  have hpads : ∀ pad ∈ pads, OneLine pad ∧ ∀ c ∈ pad, isBlank c = true := fun pad hpad =>
    ⟨fun c hc => (hall pad hpad c hc).1, fun c hc => (hall pad hpad c hc).2⟩
  exact ⟨rfl, hlines, hpads, identify_indent .standard .lf pads lines rfl hlines hpads⟩

end CodeFolding
