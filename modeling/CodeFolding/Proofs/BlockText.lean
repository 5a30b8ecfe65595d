import CodeFolding.Proofs.RegionList
import CodeFolding.Proofs.Twins
import CodeFolding.Text.Decimal

/-!
Texts printed from a list of operations on blocks.

An operation opens a block behind a declaration or without one, closes the innermost block, or
writes a line that does neither; blocks that are still open at the end are closed there. Identifying
the regions of such a text gives the declared blocks back: each line is code throughout, so the scan
follows the operations one line at a time, and its stack holds the blocks that are open.
-/

set_option autoImplicit false

namespace CodeFolding

/-! ## The printed text -/

inductive BlockOp where
  /-- Opens a block behind a declaration. -/
  | declare
  | plain
  /-- Closes the innermost block; an empty line if none is open. -/
  | close
  /-- Opens a block without a declaration. -/
  | anonymous
  deriving DecidableEq, Repr

/-- The kinds of declaration take turns. -/
def blockKind (i : Nat) : Kind :=
  match i % 6 with
  | 0 => .fn
  | 1 => .struct
  | 2 => .impl
  | 3 => .enum
  | 4 => .trait
  | _ => .mod

theorem blockKind_ne_imports (i : Nat) : blockKind i ≠ .imports := by
  unfold blockKind
  split <;> simp

def indent (depth : Nat) : List Char := List.replicate (4 * depth) ' '

@[simp] theorem length_indent (depth : Nat) : (indent depth).length = 4 * depth :=
  List.length_replicate

namespace BlockOp

/-- Operations by their numbers, counted modulo four. -/
def ofCode (n : Nat) : BlockOp :=
  match n % 4 with
  | 0 => declare
  | 1 => plain
  | 2 => close
  | _ => anonymous

/-- How many blocks are open behind an operation. -/
def depthAfter (depth : Nat) : BlockOp → Nat
  | declare | anonymous => depth + 1
  | plain => depth
  | close => depth - 1

/-- What operation `i` writes in front of its brace, `depth` blocks being open. -/
def front (i depth : Nat) : BlockOp → List Char
  | declare => indent depth ++ ((blockKind i).name.toList ++ " item".toList ++ digits i ++ [' '])
  | plain => indent depth ++ ("let x".toList ++ digits i ++ " = ".toList ++ digits i ++ [';'])
  | close => indent (depth - 1)
  | anonymous => indent depth ++ "if x ".toList

def brace (depth : Nat) : BlockOp → List Char
  | declare | anonymous => ['{']
  | plain => []
  | close => if depth = 0 then [] else ['}']

def line (i depth : Nat) (op : BlockOp) : List Char := op.front i depth ++ op.brace depth

end BlockOp

/-- The closing braces of blocks, the innermost first. -/
def closings : Nat → List Char
  | 0 => []
  | depth + 1 => indent depth ++ '}' :: '\n' :: closings depth

/-- The text of the operations from `i` on, `depth` blocks being open. -/
def blockText (i depth : Nat) : List BlockOp → List Char
  | [] => closings depth
  | op :: rest => op.line i depth ++ '\n' :: blockText (i + 1) (op.depthAfter depth) rest

/-! ## The declared blocks -/

/-- The line on which the block around `inner` others is closed, by operations whose lines count
from `n` on. -/
def closingLine (n inner : Nat) : List BlockOp → Nat
  | [] => n + inner
  | op :: rest =>
    if op = .close ∧ inner = 0 then n else closingLine (n + 1) (op.depthAfter inner) rest

/-- The declared blocks of the operations from `i` on, in the order of the operations. -/
def blocksOf (policy : Policy) (i depth : Nat) : List BlockOp → List Region
  | [] => []
  | op :: rest =>
    (if op = .declare then
      [⟨blockKind i, i + 1, closingLine (i + 2) 0 rest, i + 1, depth, policy.folds (blockKind i),
        none, []⟩]
    else []) ++ blocksOf policy (i + 1) (op.depthAfter depth) rest

/-- A region with its level as a word of 32 bits. -/
def Region.wrapLevel (r : Region) : Region := { r with level := Int.bmod r.level 4294967296 }

/-! ## Lines that are code throughout -/

/-- A character that is no line end and no brace and begins no comment or literal. -/
def isIdle (c : Char) : Bool := !(['\n', '\r', '/', '"', '\'', '{', '}'].contains c)

theorem isIdle_iff (c : Char) : isIdle c = true ↔
    c ≠ '\n' ∧ c ≠ '\r' ∧ c ∉ Mode.fences ∧ c ≠ '{' ∧ c ≠ '}' := by
  simp [isIdle, Mode.fences, and_assoc]

theorem isIdle_of_isDigit {c : Char} (h : c.isDigit = true) : isIdle c = true := by
  rw [isIdle_iff]
  exact ⟨ne_of_isDigit h rfl, ne_of_isDigit h rfl, by
    simp [Mode.fences, ne_of_isDigit (d := '/') h rfl, ne_of_isDigit (d := '"') h rfl,
      ne_of_isDigit (d := '\'') h rfl],
    ne_of_isDigit h rfl, ne_of_isDigit h rfl⟩

/-- No character of the line begins a comment or a literal. -/
def Bare (line : List Char) : Prop := ∀ c ∈ line, c ∉ Mode.fences

theorem step_of_bare {behind rest : List Char} {c : Char} (h : Bare (c :: rest)) :
    Mode.code.step behind c rest = (.code, .code) := by
  have hc : c ≠ '/' ∧ c ≠ '"' ∧ c ≠ '\'' := by simpa [Mode.fences] using h c (by simp)
  have hraw : opensRaw rest = false := by
    rw [Bool.eq_false_iff]
    intro hopen
    obtain ⟨hashes, more, rfl⟩ := (opensRaw_iff rest).1 hopen
    exact h '"' (by simp) (by simp [Mode.fences])
  simp [Mode.step, hc, hraw]

theorem classifyFrom_bare {line : List Char} (h : Bare line) (behind : List Char) (offset : Nat) :
    (classifyFrom behind offset .code line).2 = .code ∧
      ∀ c ∈ (classifyFrom behind offset .code line).1, c.isLive = true := by
  induction line generalizing behind offset with
  | nil => simp [classifyFrom]
  | cons c rest ih =>
    obtain ⟨hmode, hlive⟩ := ih (fun d hd => h d (by simp [hd])) (c :: behind) (offset + c.utf8Size)
    simp only [classifyFrom, step_of_bare h, List.mem_cons, forall_eq_or_imp]
    exact ⟨hmode, rfl, hlive⟩

/-- The row of a line before which nothing is open. -/
def freshRow (line : List Char) : Row := ⟨line, .neutral, (classify .neutral line).1⟩

theorem classify_bare {line : List Char} (h : Bare line) :
    (classify .neutral line).2 = .neutral :=
  congrArg Mode.carry (classifyFrom_bare h [] 0).1

theorem isLive_of_bare {line : List Char} (h : Bare line) {c : Cell}
    (hc : c ∈ (freshRow line).cells) : c.isLive = true :=
  (classifyFrom_bare h [] 0).2 c hc

theorem liveChars_bare {line : List Char} (h : Bare line) :
    Nesting.liveChars (freshRow line) = line := by
  rw [Nesting.liveChars, List.filter_eq_self.2 fun c => isLive_of_bare h]
  exact classify_chars _ _

theorem candidate?_bare {line : List Char} (h : Bare line) {n : Nat} {kind : Kind}
    (hkey : Declaration.keyword? (Declaration.fromKeyword line) = some kind) :
    Nesting.candidate? n false (freshRow line) = some ⟨n, kind⟩ := by
  have hread : (freshRow line).Read := ⟨rfl, .inl rfl⟩
  obtain ⟨pre, hpre⟩ := Declaration.fromKeyword_suffix line
  have hdrop : Declaration.fromKeyword line = line.drop pre.length := by
    conv_rhs => rw [← hpre, List.drop_left]
  have hlt : pre.length < (freshRow line).cells.length := by
    rw [hread.length, freshRow, ← hpre, List.length_append]
    cases hfrom : Declaration.fromKeyword line with
    | nil =>
      rw [hfrom, show Declaration.keyword? [] = none from rfl] at hkey
      simp at hkey
    | cons c rest => simp
  have hlive : (freshRow line).Live pre.length :=
    ⟨_, List.getElem?_eq_getElem hlt, isLive_of_bare h (List.getElem_mem hlt)⟩
  exact hread.candidate?_eq_some.2
    ⟨rfl, (Row.mode_zero_eq_code _).2 rfl, rfl, hkey, pre.length, hdrop, hlive⟩

theorem candidate?_eq_none {row : Row}
    (h : Declaration.keyword? (Declaration.fromKeyword row.text) = none) (n : Nat) (owned : Bool) :
    Nesting.candidate? n owned row = none := by
  simp [Nesting.candidate?, Declaration.find?, h]

/-- A `use` has an `s` behind a `u`. -/
theorem fromUse?_eq_none {cells : List Cell}
    (h : ¬ List.Sublist ['u', 's'] ((cells.map (·.char)).filter fun c => c = 'u' || c = 's')) :
    Cell.fromUse? none cells = none := by
  cases hfrom : Cell.fromUse? none cells with
  | none => rfl
  | some back =>
    obtain ⟨front, rfl, ⟨u, s, e, rest, rfl, hu, hs, -⟩, -⟩ := Cell.fromUse?_spec hfrom
    have hmap : ((front ++ u :: s :: e :: rest).map (·.char)) =
        front.map (·.char) ++ 'u' :: 's' :: (e :: rest).map (·.char) := by simp [hu, hs]
    rw [hmap, List.filter_append] at h
    refine absurd (List.sublist_append_of_sublist_right ?_) h
    exact List.Sublist.cons_cons 'u' (List.Sublist.cons_cons 's' (List.nil_sublist _))

namespace Declaration

/-- A text behind blanks in which nothing stands before the keyword. -/
theorem fromKeyword_behind_blanks {blanks cs : List Char} (hblanks : ∀ c ∈ blanks, isBlank c = true)
    (hstart : trimStart cs = cs) (hvisible : after? "pub".toList cs = none)
    (hleading : qualifier? leadingQualifiers cs = none)
    (hforeign : after? "extern".toList cs = none)
    (htrailing : qualifier? trailingQualifiers cs = none) : fromKeyword (blanks ++ cs) = cs := by
  rw [fromKeyword_eq, trimStart_append hblanks, hstart, visibility?_none hvisible, Option.getD_none,
    fromQualifiers, skipQualifiers_of_none hleading, fromInterface_none (by rw [hforeign]; rfl),
    skipQualifiers_of_none htrailing]

end Declaration

theorem isBlank_of_mem_indent {depth : Nat} {c : Char} (h : c ∈ indent depth) :
    isBlank c = true := by
  rw [List.eq_of_mem_replicate h]
  decide

theorem keyword?_declaration (depth i : Nat) (rest : List Char) :
    Declaration.keyword? (Declaration.fromKeyword
      (indent depth ++ ((blockKind i).name.toList ++ ' ' :: rest))) = some (blockKind i) := by
  have hne := blockKind_ne_imports i
  generalize blockKind i = k at hne
  rw [Declaration.fromKeyword_behind_blanks fun c => isBlank_of_mem_indent]
  · cases k with
    | imports => exact absurd rfl hne
    | _ => rfl
  all_goals cases k <;> rfl

/-! ## One line of the text -/

section Pieces

variable {p : Char → Bool}

theorem filter_indent (hp : p ' ' = false) (depth : Nat) : (indent depth).filter p = [] :=
  List.filter_eq_nil_iff.2 fun c hc => by simp [List.eq_of_mem_replicate hc, hp]

theorem filter_digits (hp : ∀ c, c.isDigit = true → p c = false) (i : Nat) :
    (digits i).filter p = [] :=
  List.filter_eq_nil_iff.2 fun c hc => by simp [hp c (isDigit_of_mem_digits hc)]

end Pieces

namespace BlockOp

theorem idle_front (i depth : Nat) (op : BlockOp) : ∀ c ∈ op.front i depth, isIdle c = true := by
  have hindent : ∀ depth, (indent depth).all isIdle = true := fun depth =>
    List.all_eq_true.2 fun c hc => by
      rw [List.eq_of_mem_replicate hc]
      decide
  have hdigits : (digits i).all isIdle = true :=
    List.all_eq_true.2 fun c hc => isIdle_of_isDigit (isDigit_of_mem_digits hc)
  have hname : ∀ k : Kind, k.name.toList.all isIdle = true := by
    intro k
    cases k <;> decide
  refine List.all_eq_true.1 ?_
  cases op with
  | declare =>
    simp only [front, List.all_append, hindent, hname, hdigits]
    decide
  | plain =>
    simp only [front, List.all_append, hindent, hdigits]
    decide
  | close => exact hindent (depth - 1)
  | anonymous =>
    simp only [front, List.all_append, hindent]
    decide

theorem brace_cases (depth : Nat) (op : BlockOp) :
    op.brace depth = [] ∨ op.brace depth = ['{'] ∨ op.brace depth = ['}'] := by
  cases op with
  | declare | anonymous => exact .inr (.inl rfl)
  | plain => exact .inl rfl
  | close =>
    by_cases h : depth = 0
    · exact .inl (if_pos h)
    · exact .inr (.inr (if_neg h))

theorem bare_line (i depth : Nat) (op : BlockOp) : Bare (op.line i depth) := by
  intro c hc
  rcases List.mem_append.1 hc with hc | hc
  · exact ((isIdle_iff c).1 (op.idle_front i depth c hc)).2.2.1
  · rcases op.brace_cases depth with h | h | h <;> rw [h] at hc <;> simp_all [Mode.fences]

theorem oneLine_line (i depth : Nat) (op : BlockOp) : OneLine (op.line i depth) := by
  intro c hc
  rcases List.mem_append.1 hc with hc | hc
  · have hidle := (isIdle_iff c).1 (op.idle_front i depth c hc)
    exact ⟨hidle.1, hidle.2.1⟩
  · rcases op.brace_cases depth with h | h | h <;> rw [h] at hc <;> simp_all

theorem fromUse?_line (i depth : Nat) (op : BlockOp) :
    Cell.fromUse? none (freshRow (op.line i depth)).cells = none := by
  apply fromUse?_eq_none
  have hchars : (freshRow (op.line i depth)).cells.map (·.char) =
      op.front i depth ++ op.brace depth := classify_chars _ _
  have hindent := filter_indent (p := fun c => c = 'u' || c = 's') (by decide)
  have hdigits := filter_digits (p := fun c => c = 'u' || c = 's') (fun c hc => by
    simp [ne_of_isDigit (d := 'u') hc rfl, ne_of_isDigit (d := 's') hc rfl]) i
  have hbrace : (op.brace depth).filter (fun c => c = 'u' || c = 's') = [] := by
    rcases op.brace_cases depth with h | h | h <;> rw [h] <;> decide
  rw [hchars, List.filter_append, hbrace]
  cases op with
  | declare =>
    -- in `struct` the one `s` stands before the `u`
    have hne := blockKind_ne_imports i
    simp only [front, List.filter_append, hindent, hdigits]
    cases hk : blockKind i with
    | imports => exact absurd hk hne
    | _ => decide
  | plain =>
    simp only [front, List.filter_append, hindent, hdigits]
    decide
  | close =>
    simp only [front, hindent]
    decide
  | anonymous =>
    simp only [front, List.filter_append, hindent]
    decide

/-- The keyword that the brace of an operation takes. -/
def keyword (i : Nat) : BlockOp → Option Keyword
  | declare => some ⟨i + 1, blockKind i⟩
  | plain | close | anonymous => none

theorem candidate?_line (i depth : Nat) (op : BlockOp) :
    Nesting.candidate? (i + 1) false (freshRow (op.line i depth)) = op.keyword i := by
  have hblanks : ∀ depth, ∀ c ∈ indent depth, isBlank c = true := fun _ _ => isBlank_of_mem_indent
  cases op with
  | declare =>
    apply candidate?_bare (bare_line i depth declare)
    have hline : line i depth declare = indent depth ++ ((blockKind i).name.toList ++
        ' ' :: ("item".toList ++ digits i ++ [' ', '{'])) := by
      simp [line, front, brace]
    rw [hline, keyword?_declaration]
  | plain =>
    apply candidate?_eq_none
    simp only [freshRow, line, front, brace, List.append_assoc]
    rw [Declaration.fromKeyword_behind_blanks (hblanks depth)]
    all_goals rfl
  | close =>
    apply candidate?_eq_none
    simp only [freshRow, line, front]
    rw [Declaration.fromKeyword_behind_blanks (hblanks (depth - 1))]
    all_goals rcases close.brace_cases depth with h | h | h <;> rw [h] <;> rfl
  | anonymous =>
    apply candidate?_eq_none
    simp only [freshRow, line, front, brace, List.append_assoc]
    rw [Declaration.fromKeyword_behind_blanks (hblanks depth)]
    all_goals rfl

end BlockOp

theorem Nesting.steps_idle {policy : Policy} {n : Nat} {owned : Bool} (s : Nesting)
    {front : List Char} (h : ∀ c ∈ front, isIdle c = true) (back : List Char) :
    s.steps policy n owned (front ++ back) = s.steps policy n owned back := by
  induction front with
  | nil => rfl
  | cons c front ih =>
    have hc := (isIdle_iff c).1 (h c (by simp))
    have hstep : s.step policy n owned c = (s, none) := by
      simp [step, hc.2.2.2.1, hc.2.2.2.2]
    simp only [List.cons_append, steps, hstep, Option.toList_none, List.nil_append]
    exact ih fun d hd => h d (by simp [hd])

namespace BlockOp

/-- The open braces behind operation `i`. -/
def bracesAfter (i : Nat) (braces : List Brace) (op : BlockOp) : List Brace :=
  match op with
  | declare | anonymous => ⟨i + 1, op.keyword i⟩ :: braces
  | plain => braces
  | close => braces.tail

/-- The block that operation `i` ends. -/
def ended (policy : Policy) (i : Nat) (braces : List Brace) : BlockOp → Option Region
  | declare | plain | anonymous => none
  | close =>
    match braces with
    | [] => none
    | b :: rest => b.block? policy (i + 1) rest.length

theorem length_bracesAfter (i : Nat) (braces : List Brace) (op : BlockOp) :
    (op.bracesAfter i braces).length = op.depthAfter braces.length := by
  cases op <;> simp [bracesAfter, depthAfter]

/-- The scan of a line does to the stack what its operation does to the open blocks. -/
theorem scan_line (policy : Policy) (i : Nat) (braces : List Brace) (op : BlockOp) :
    Nesting.line policy (i + 1) false (freshRow (op.line i braces.length)) ⟨braces, none⟩ =
      (⟨op.bracesAfter i braces, none⟩, (op.ended policy i braces).toList) := by
  have hend : ∀ row (bs : List Brace), Nesting.endLine (i + 1) row ⟨bs, none⟩ = ⟨bs, none⟩ :=
    fun _ _ => rfl
  simp only [Nesting.line, candidate?_line, liveChars_bare (bare_line i braces.length op),
    Option.or_none]
  rw [BlockOp.line, Nesting.steps_idle _ (op.idle_front i braces.length)]
  cases op with
  | declare => rfl
  | plain => rfl
  | anonymous => rfl
  | close =>
    cases braces with
    | nil => rfl
    | cons b rest => simp [brace, keyword, Nesting.steps, Nesting.step, bracesAfter, ended, hend]

end BlockOp

/-! ## The lines of the text -/

theorem rowsOf_line {line : List Char} (hbare : Bare line) (hone : OneLine line)
    (rest : List Char) : rowsOf (line ++ '\n' :: rest) = freshRow line :: rowsOf rest := by
  rw [rowsOf, splitLines_line hone, Row.ofLines, classify_bare hbare]
  rfl

theorem rowsOf_op (i depth : Nat) (op : BlockOp) (rest : List BlockOp) :
    rowsOf (blockText i depth (op :: rest)) =
      freshRow (op.line i depth) :: rowsOf (blockText (i + 1) (op.depthAfter depth) rest) :=
  rowsOf_line (op.bare_line i depth) (op.oneLine_line i depth) _

/-- At the end of the operations a block is closed as by an operation. -/
theorem rowsOf_end (i depth : Nat) : rowsOf (blockText i (depth + 1) []) =
    freshRow (BlockOp.close.line i (depth + 1)) :: rowsOf (blockText (i + 1) depth []) := by
  have htext : blockText i (depth + 1) [] =
      BlockOp.close.line i (depth + 1) ++ '\n' :: blockText (i + 1) depth [] := by
    simp [blockText, closings, BlockOp.line, BlockOp.front, BlockOp.brace]
  rw [htext, rowsOf_line (BlockOp.bare_line i _ _) (BlockOp.oneLine_line i _ _)]

/-- The lines of a text: those of its operations, those that close the open blocks, and an empty
one. -/
theorem blockText_induction {motive : Nat → Nat → List BlockOp → Prop}
    (done : ∀ i, motive i 0 [])
    (last : ∀ i depth, motive (i + 1) depth [] → motive i (depth + 1) [])
    (op : ∀ i depth op rest, motive (i + 1) (BlockOp.depthAfter depth op) rest →
      motive i depth (op :: rest)) (i depth : Nat) (ops : List BlockOp) : motive i depth ops := by
  induction ops generalizing i depth with
  | nil =>
    induction depth generalizing i with
    | zero => exact done i
    | succ depth ih => exact last i depth (ih (i + 1))
  | cons o rest ih => exact op i depth o rest (ih _ _)

theorem fromUse?_blockText {i depth : Nat} {ops : List BlockOp} :
    ∀ row ∈ rowsOf (blockText i depth ops), Cell.fromUse? none row.cells = none := by
  induction i, depth, ops using blockText_induction with
  | done i =>
    intro row hrow
    obtain rfl : row = freshRow [] := List.mem_singleton.1 hrow
    rfl
  | last i depth ih =>
    rw [rowsOf_end, List.forall_mem_cons]
    exact ⟨BlockOp.fromUse?_line i (depth + 1) .close, ih⟩
  | op i depth op rest ih =>
    rw [rowsOf_op, List.forall_mem_cons]
    exact ⟨op.fromUse?_line i depth, ih⟩

theorem spans_of_no_use {rows : List Row} (h : ∀ row ∈ rows, Cell.fromUse? none row.cells = none)
    (n attributes : Nat) : (ImportSearch.between attributes).spans n rows = [] := by
  induction rows generalizing n attributes with
  | nil => rfl
  | cons row rest ih =>
    rw [List.forall_mem_cons] at h
    simp only [ImportSearch.spans, ImportSearch.step, h.1, Option.toList_none, List.nil_append]
    exact ih h.2 _ _

/-! ## The blocks of the text -/

/-- The blocks of open braces; `last j` is the line that closes the block around `j` others. -/
def openBlocks (policy : Policy) (last : Nat → Nat) : List Brace → List Region
  | [] => []
  | b :: rest => (b.block? policy (last 0) rest.length).toList ++
      openBlocks policy (fun j => last (j + 1)) rest

theorem le_closingLine (n inner : Nat) (ops : List BlockOp) : n ≤ closingLine n inner ops := by
  induction ops generalizing n inner with
  | nil => exact Nat.le_add_right n inner
  | cons op rest ih =>
    rw [closingLine]
    split
    · exact Nat.le_refl n
    · exact Nat.le_trans (Nat.le_succ n) (ih _ _)

theorem closingLine_end (n : Nat) (inner : Nat) :
    closingLine n (inner + 1) [] = closingLine (n + 1) inner [] := by
  simp only [closingLine]
  omega

/-- Between an operation and the next, the blocks to come are those whose braces are open and those
of the operations that are left. -/
theorem blocks_blockText (policy : Policy) (i : Nat) (braces : List Brace) (ops : List BlockOp) :
    (Nesting.blocks policy [] (i + 1) ⟨braces, none⟩ (rowsOf (blockText i braces.length ops))).Perm
      (openBlocks policy (fun j => closingLine (i + 1) j ops) braces ++
        (blocksOf policy i braces.length ops).map Region.wrapLevel) := by
  have hfree : ∀ l, ownsLine [] l = false := fun _ => rfl
  induction ops generalizing i braces with
  | nil =>
    rw [blocksOf, List.map_nil, List.append_nil]
    induction braces generalizing i with
    | nil => exact .refl _
    | cons b rest ih =>
      rw [List.length_cons, rowsOf_end, Nesting.blocks, hfree, ← List.length_cons,
        BlockOp.scan_line, openBlocks]
      simp only [closingLine_end]
      exact (ih (i + 1)).append_left _
  | cons op rest ih =>
    have hrest := ih (i + 1) (op.bracesAfter i braces)
    rw [BlockOp.length_bracesAfter] at hrest
    rw [rowsOf_op, Nesting.blocks, hfree, BlockOp.scan_line, blocksOf, List.map_append]
    refine (hrest.append_left _).trans ?_
    cases op with
    | declare =>
      have hlt : i + 1 < closingLine (i + 2) 0 rest := le_closingLine (i + 2) 0 rest
      simp only [BlockOp.ended, BlockOp.bracesAfter, openBlocks, BlockOp.keyword, Brace.block?, hlt,
        closingLine, BlockOp.depthAfter, if_true, Option.toList_some, Option.toList_none,
        List.map_singleton, List.nil_append, reduceCtorEq, false_and, if_false,
        List.cons_append]
      exact List.perm_middle.symm
    | plain => simp [BlockOp.ended, BlockOp.bracesAfter, closingLine, BlockOp.depthAfter]
    | anonymous =>
      simp [BlockOp.ended, BlockOp.bracesAfter, openBlocks, closingLine, BlockOp.depthAfter,
        BlockOp.keyword, Brace.block?]
    | close =>
      cases braces with
      | nil => simp [BlockOp.ended, BlockOp.bracesAfter, openBlocks, BlockOp.depthAfter]
      | cons b more =>
        simp [BlockOp.ended, BlockOp.bracesAfter, openBlocks, closingLine, BlockOp.depthAfter]

theorem blocksOf_first (policy : Policy) (i depth : Nat) (ops : List BlockOp) :
    (∀ r ∈ blocksOf policy i depth ops, i < r.first) ∧
      (blocksOf policy i depth ops).Pairwise fun a b => a.first < b.first := by
  induction ops generalizing i depth with
  | nil => simp [blocksOf]
  | cons op rest ih =>
    obtain ⟨hbehind, hsorted⟩ := ih (i + 1) (op.depthAfter depth)
    have hrest : ∀ r ∈ blocksOf policy (i + 1) (op.depthAfter depth) rest, i < r.first :=
      fun r hr => Nat.lt_trans (Nat.lt_succ_self i) (hbehind r hr)
    rw [blocksOf]
    split
    · exact ⟨List.forall_mem_cons.2 ⟨Nat.lt_succ_self i, hrest⟩,
        List.pairwise_cons.2 ⟨hbehind, hsorted⟩⟩
    · exact ⟨hrest, hsorted⟩

theorem identify_blockText_eq (policy : Policy) (ops : List BlockOp) :
    identify policy (blockText 0 0 ops) = (blocksOf policy 0 0 ops).map Region.wrapLevel := by
  have hspans : importSpans (rowsOf (blockText 0 0 ops)) = [] :=
    spans_of_no_use fromUse?_blockText 1 0
  have hperm := identify_perm policy (blockText 0 0 ops)
  rw [hspans] at hperm
  have hblocks := hperm.trans (blocks_blockText policy 0 [] ops)
  have hsorted : ((blocksOf policy 0 0 ops).map Region.wrapLevel).Pairwise
      fun a b => a.first < b.first := List.pairwise_map.2 (blocksOf_first policy 0 0 ops).2
  exact hblocks.eq_of_pairwise (fun a b _ _ hab hba => by omega) (identify_pairwise _ _) hsorted

/-! ## Levels -/

theorem length_le_byteLength (cs : List Char) : cs.length ≤ Utf8.byteLength cs := by
  induction cs with
  | nil => exact Nat.le_refl 0
  | cons c cs ih =>
    have := c.utf8Size_pos
    simp only [List.length_cons, Utf8.byteLength]
    omega

/-- A level takes a text whose length grows with its square, for the lines are indented. -/
theorem level_le_length (policy : Policy) (i depth : Nat) (ops : List BlockOp) :
    ∀ r ∈ blocksOf policy i depth ops, ∃ level : Nat, r.level = level ∧
      2 * (level * level) ≤ (blockText i depth ops).length + 2 * (depth * depth) := by
  induction ops generalizing i depth with
  | nil => simp [blocksOf]
  | cons op rest ih =>
    have hgrows : 2 * (op.depthAfter depth * op.depthAfter depth) ≤
        (op.line i depth).length + 1 + 2 * (depth * depth) := by
      have hsquare : (depth + 1) * (depth + 1) = depth * depth + 2 * depth + 1 := by
        rw [Nat.add_mul, Nat.mul_add]
        omega
      have hless : (depth - 1) * (depth - 1) ≤ depth * depth :=
        Nat.mul_le_mul (Nat.sub_le depth 1) (Nat.sub_le depth 1)
      cases op <;>
        simp only [BlockOp.depthAfter, BlockOp.line, BlockOp.front, BlockOp.brace, hsquare,
          List.length_append, length_indent, List.length_singleton] <;> omega
    have hlength : (blockText i depth (op :: rest)).length =
        (op.line i depth).length + 1 + (blockText (i + 1) (op.depthAfter depth) rest).length := by
      simp [blockText]
      omega
    intro r hr
    rcases List.mem_append.1 hr with hr | hr
    · split at hr
      · obtain rfl := List.mem_singleton.1 hr
        exact ⟨depth, rfl, by omega⟩
      · simp at hr
    · obtain ⟨level, hlevel, hle⟩ := ih (i + 1) (op.depthAfter depth) r hr
      exact ⟨level, hlevel, by omega⟩

theorem wrapLevel_eq_self {policy : Policy} {ops : List BlockOp} {r : Region}
    (hsize : Utf8.byteLength (blockText 0 0 ops) < 9223372036854775808)
    (hr : r ∈ blocksOf policy 0 0 ops) : r.wrapLevel = r := by
  obtain ⟨level, hlevel, hle⟩ := level_le_length policy 0 0 ops r hr
  have hlt : level < 2147483648 := by
    by_contra hge
    have hsquare := Nat.mul_le_mul (Nat.le_of_not_lt hge) (Nat.le_of_not_lt hge)
    have := length_le_byteLength (blockText 0 0 ops)
    omega
  have hword : Int.bmod r.level 4294967296 = r.level := by
    rw [hlevel]
    exact Int.bmod_eq_of_le_mul_two (by omega) (by omega)
  rw [Region.wrapLevel, hword]

/-- The regions of a printed text are its declared blocks, in the order of the operations, with
their levels as words of 32 bits. A text below 2 ^ 63 bytes has no level that does not fit. -/
theorem identify_blockText (policy : Policy) (codes : List Nat) :
    let ops := codes.map BlockOp.ofCode
    let source := blockText 0 0 ops
    identify policy source = (blocksOf policy 0 0 ops).map Region.wrapLevel ∧
      (Utf8.byteLength source < 9223372036854775808 →
        identify policy source = blocksOf policy 0 0 ops) := by
  intro ops source
  have hregions := identify_blockText_eq policy ops
  refine ⟨hregions, fun hsize => hregions.trans ?_⟩
  exact (List.map_congr_left fun r hr => wrapLevel_eq_self hsize hr).trans (List.map_id _)

/-- An implementation within a block without a declaration, and a closing too many. -/
theorem identify_nested_blocks :
    let source := blockText 0 0 ([0, 3, 4, 2, 2, 2, 2].map BlockOp.ofCode)
    Utf8.byteLength source < 9223372036854775808 ∧ identify .standard source =
      [⟨.fn, 1, 6, 1, 0, true, none, []⟩, ⟨.impl, 3, 4, 3, 2, false, none, []⟩] := by
  intro source
  have hsize : Utf8.byteLength source < 9223372036854775808 := by decide +kernel
  exact ⟨hsize, (identify_blockText .standard [0, 3, 4, 2, 2, 2, 2]).2 hsize⟩

end CodeFolding
