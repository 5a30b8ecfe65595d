import CodeFolding.Cell.Classify
import CodeFolding.Text.Utf8

/-!
The grammar of a line: characters of code, comments and literals.

A line is a sequence of segments. Each has one role and ends where its kind of text ends first; the
last one may stay open, and the next line then begins with the rest of it. Every line that follows
from the start of a text has one such reading, and classification gives it.
-/

set_option autoImplicit false

namespace CodeFolding

/-- The text behind the opener of a block comment, through the first end of a comment. -/
def ClosedComment (w : List Char) : Prop :=
  ∃ body, w = body ++ ['*', '/'] ∧ ¬ ['*', '/'] <:+: body ++ ['*']

def OpenComment (w : List Char) : Prop := ¬ ['*', '/'] <:+: w

/-- Text of a literal: a backslash takes the next character with it, and no other character is the
delimiter. -/
inductive LiteralText (d : Char) : List Char → Prop where
  | nil : LiteralText d []
  | plain {c : Char} {w : List Char} : c ≠ '\\' → c ≠ d → LiteralText d w → LiteralText d (c :: w)
  | escape {c : Char} {w : List Char} : LiteralText d w → LiteralText d ('\\' :: c :: w)

/-- The text behind the opener of a literal, through the first delimiter no backslash skips. -/
def ClosedLiteral (d : Char) (w : List Char) : Prop := ∃ body, w = body ++ [d] ∧ LiteralText d body

/-- Text that does not end a literal; a backslash may be its last character. -/
def OpenLiteral (d : Char) (w : List Char) : Prop :=
  LiteralText d w ∨ ∃ body, w = body ++ ['\\'] ∧ LiteralText d body

/-- Text, nearest character first, that ends in an identifier other than a `b` alone. -/
def EndsIdentifier (behind : List Char) : Prop :=
  ∃ c rest, behind = c :: rest ∧ continuesIdentifier c = true ∧
    ¬ (c = 'b' ∧ ∀ d, rest.head? = some d → continuesIdentifier d = false)

/-- The opener of a literal, its delimiter, and the text that follows the opener. -/
inductive Opener (behind : List Char) : List Char → Char → List Char → Prop where
  | double (rest : List Char) : Opener behind ['"'] '"' rest
  | single {rest : List Char} : opensQuoted rest = true → Opener behind ['\''] '\'' rest
  | raw (hashes : Nat) (rest : List Char) : ¬ EndsIdentifier behind →
      Opener behind ('r' :: List.replicate hashes '#' ++ ['"']) '"' rest

def Opens (behind text : List Char) : Prop :=
  ['/', '/'] <+: text ∨ ['/', '*'] <+: text ∨
    ∃ opener d rest, Opener behind opener d rest ∧ text = opener ++ rest

/-- A segment `text` between `behind` and `rest`. -/
inductive Segment (behind : List Char) : (text rest : List Char) → Role → Prop where
  | code {c : Char} {rest : List Char} : ¬ Opens behind (c :: rest) →
      Segment behind [c] rest .code
  | blockComment {body : List Char} (rest : List Char) : ClosedComment body →
      Segment behind ('/' :: '*' :: body) rest .blockComment
  | literal {opener body rest : List Char} {d : Char} : Opener behind opener d (body ++ rest) →
      ClosedLiteral d body → Segment behind (opener ++ body) rest .literal

/-- A segment that goes to the end of the line, and what it leaves open. -/
inductive LastSegment (behind : List Char) : List Char → Role → Carry → Prop where
  | lineComment (body : List Char) : LastSegment behind ('/' :: '/' :: body) .lineComment .neutral
  | blockComment {body : List Char} : OpenComment body →
      LastSegment behind ('/' :: '*' :: body) .blockComment ⟨true, none⟩
  | literal {opener body : List Char} {d : Char} : Opener behind opener d body →
      OpenLiteral d body → LastSegment behind (opener ++ body) .literal ⟨false, some d⟩

/-- Segments to the end of the line, with a role for each character and what stays open. -/
inductive Segments : (behind text : List Char) → List Role → Carry → Prop where
  | nil (behind : List Char) : Segments behind [] [] .neutral
  | cons {behind text rest : List Char} {role : Role} {roles : List Role} {s : Carry} :
      Segment behind text rest role → Segments (text.reverse ++ behind) rest roles s →
      Segments behind (text ++ rest) (List.replicate text.length role ++ roles) s
  | last {behind text : List Char} {role : Role} {s : Carry} : LastSegment behind text role s →
      Segments behind text (List.replicate text.length role) s

/-- A line that begins with what the line before it leaves open. -/
inductive Reading : Carry → (line : List Char) → List Role → Carry → Prop where
  | fresh {line : List Char} {roles : List Role} {s : Carry} : Segments [] line roles s →
      Reading .neutral line roles s
  | comment {text rest : List Char} {roles : List Role} {s : Carry} : ClosedComment text →
      Segments text.reverse rest roles s →
      Reading ⟨true, none⟩ (text ++ rest) (List.replicate text.length .blockComment ++ roles) s
  | inComment {line : List Char} : OpenComment line →
      Reading ⟨true, none⟩ line (List.replicate line.length .blockComment) ⟨true, none⟩
  | literal {text rest : List Char} {roles : List Role} {s : Carry} {d : Char} :
      ClosedLiteral d text → Segments text.reverse rest roles s →
      Reading ⟨false, some d⟩ (text ++ rest) (List.replicate text.length .literal ++ roles) s
  | inLiteral {line : List Char} {d : Char} : OpenLiteral d line →
      Reading ⟨false, some d⟩ line (List.replicate line.length .literal) ⟨false, some d⟩

/-- What can be open before a line of some text. -/
inductive Reachable : Carry → Prop where
  | start : Reachable .neutral
  | line {s : Carry} (text : List Char) : Reachable s → Reachable (classify s text).2

def Mode.run (behind : List Char) (m : Mode) : List Char → List Role × Mode
  | [] => ([], m)
  | c :: rest =>
    let next := m.step behind c rest
    let after := run (c :: behind) next.2 rest
    (next.1 :: after.1, after.2)

theorem classifyFrom_run (behind : List Char) (offset : Nat) (m : Mode) (line : List Char) :
    ((classifyFrom behind offset m line).1.map (·.role), (classifyFrom behind offset m line).2) =
      m.run behind line := by
  induction line generalizing behind offset m with
  | nil => rfl
  | cons c rest ih =>
    have h := ih (c :: behind) (offset + c.utf8Size) (m.step behind c rest).2
    simp only [classifyFrom, Mode.run, List.map_cons, ← h]

theorem classify_run (s : Carry) (line : List Char) :
    (classify s line).1.map (·.role) = ((Mode.ofCarry s).run [] line).1 ∧
      (classify s line).2 = ((Mode.ofCarry s).run [] line).2.carry := by
  rw [← classifyFrom_run [] 0]
  exact ⟨rfl, rfl⟩

theorem classifyFrom_offset {behind : List Char} {offset : Nat} {m : Mode} {line : List Char}
    {i : Nat} {c : Cell} (h : (classifyFrom behind offset m line).1[i]? = some c) :
    c.offset = offset + Utf8.byteLength (line.take i) := by
  induction line generalizing behind offset m i with
  | nil => simp [classifyFrom] at h
  | cons x rest ih =>
    cases i with
    | zero =>
      simp only [classifyFrom, List.getElem?_cons_zero, Option.some.injEq] at h
      subst h
      simp [Utf8.byteLength]
    | succ i =>
      simp only [classifyFrom, List.getElem?_cons_succ] at h
      rw [ih h, List.take_succ_cons, Utf8.byteLength, Nat.add_assoc]

namespace Mode

/-- Some characters of one role, and then the rest of the line in another mode. -/
def Passes (behind : List Char) (m : Mode) (text rest : List Char) (role : Role) (n : Mode) :
    Prop :=
  m.run behind (text ++ rest) =
    (List.replicate text.length role ++ (n.run (text.reverse ++ behind) rest).1,
      (n.run (text.reverse ++ behind) rest).2)

variable {behind text more rest : List Char} {m n l : Mode} {role : Role} {c : Char}

theorem Passes.nil : m.Passes behind [] rest role m := by simp [Passes]

theorem Passes.cons (hstep : m.step behind c (text ++ rest) = (role, n))
    (h : n.Passes (c :: behind) text rest role l) :
    m.Passes behind (c :: text) rest role l := by
  unfold Passes at h ⊢
  simp [run, hstep, h, List.replicate_succ]

theorem Passes.one (hstep : m.step behind c rest = (role, n)) :
    m.Passes behind [c] rest role n := .cons hstep .nil

theorem Passes.append (h : m.Passes behind text (more ++ rest) role n)
    (h' : n.Passes (text.reverse ++ behind) more rest role l) :
    m.Passes behind (text ++ more) rest role l := by
  unfold Passes at h h' ⊢
  rw [List.append_assoc, h, h']
  simp [← List.replicate_append_replicate]

theorem Passes.run_end (h : m.Passes behind text [] role n) :
    m.run behind text = (List.replicate text.length role, n) := by
  simpa [Passes, run] using h

theorem passes_comment {u : Option Char} (h : ¬ ['*', '/'] <:+: text ++ ['*']) :
    (Mode.blockComment u).Passes behind (text ++ ['*', '/']) rest .blockComment (ofDelimiter u) := by
  induction text generalizing behind with
  | nil => exact .cons (n := .commentClosing u) (by simp [step]) (.one rfl)
  | cons c text ih =>
    refine .cons (n := .blockComment u) ?_ (ih fun hin => h (hin.trans (List.suffix_cons _ _).isInfix))
    have hc : ¬ (c = '*' ∧ (text ++ ['*', '/'] ++ rest).head? = some '/') := by
      intro hgiven
      obtain ⟨rfl, hhead⟩ := hgiven
      cases text with
      | nil => simp at hhead
      | cons d text =>
        obtain rfl : d = '/' := by simpa using hhead
        exact h ⟨[], text ++ ['*'], by simp⟩
    exact if_neg hc

theorem passes_openComment {u : Option Char} (h : OpenComment text) :
    (Mode.blockComment u).Passes behind text [] .blockComment (.blockComment u) := by
  induction text generalizing behind with
  | nil => exact .nil
  | cons c text ih =>
    refine .cons (n := .blockComment u) ?_ (ih fun hin => h (hin.trans (List.suffix_cons _ _).isInfix))
    have hc : ¬ (c = '*' ∧ (text ++ []).head? = some '/') := by
      intro hgiven
      obtain ⟨rfl, hhead⟩ := hgiven
      cases text with
      | nil => simp at hhead
      | cons d text =>
        obtain rfl : d = '/' := by simpa using hhead
        exact h ⟨[], text, by simp⟩
    rw [step, if_neg hc]

theorem passes_literalText {d : Char} (h : LiteralText d text) :
    (Mode.literal d).Passes behind text rest .literal (.literal d) := by
  induction h generalizing behind with
  | nil => exact .nil
  | plain hescape hd _ ih => exact .cons (n := .literal d) (by simp [step, hescape, hd]) ih
  | escape _ ih =>
    exact .cons (n := .escaped d) (by simp [step]) (.cons (n := .literal d) rfl ih)

theorem passes_literal {d : Char} (hd : d ≠ '\\') (h : ClosedLiteral d text) :
    (Mode.literal d).Passes behind text rest .literal .code := by
  obtain ⟨body, rfl, hbody⟩ := h
  exact (passes_literalText hbody).append (.one (by simp [step, hd]))

theorem passes_openLiteral {d : Char} (hd : d ≠ '\\') (h : OpenLiteral d text) :
    (Mode.literal d).Passes behind text [] .literal (.literal d) := by
  rcases h with h | ⟨body, rfl, hbody⟩
  · exact passes_literalText h
  · exact (passes_literalText hbody).append (.one (by simp [step, hd.symm]))

theorem passes_lineComment :
    Mode.lineComment.Passes behind text rest .lineComment .lineComment := by
  induction text generalizing behind with
  | nil => exact .nil
  | cons c text ih => exact .cons rfl ih

theorem passes_hashes (hashes : Nat) :
    Mode.rawOpening.Passes behind (List.replicate hashes '#' ++ ['"']) rest .literal
      (.literal '"') := by
  induction hashes generalizing behind with
  | zero => exact .one rfl
  | succ hashes ih => exact .cons (n := .rawOpening) rfl ih

end Mode

theorem allowsRaw_iff (behind : List Char) : allowsRaw behind = true ↔ ¬ EndsIdentifier behind := by
  unfold allowsRaw
  split
  · simp [EndsIdentifier]
  · simp [EndsIdentifier]
  · rename_i c rest
    simp [EndsIdentifier, show continuesIdentifier 'b' = true by decide]
  · rename_i c rest hb hbc
    have hne : c ≠ 'b' := by
      intro heq
      subst heq
      cases rest with
      | nil => exact hb rfl rfl
      | cons d rest => exact hbc d rest rfl rfl
    simp [EndsIdentifier, hne]

theorem opensRaw_iff (rest : List Char) :
    opensRaw rest = true ↔ ∃ hashes more, rest = List.replicate hashes '#' ++ '"' :: more := by
  unfold opensRaw
  constructor
  · intro h
    induction rest with
    | nil => simp at h
    | cons c rest ih =>
      by_cases hc : c = '#'
      · subst hc
        obtain ⟨hashes, more, rfl⟩ := ih (by simpa using h)
        exact ⟨hashes + 1, more, rfl⟩
      · have hq : c = '"' := by simpa [hc] using h
        exact ⟨0, rest, by simp [hq]⟩
  · intro hgiven
    obtain ⟨hashes, more, rfl⟩ := hgiven
    rw [List.dropWhile_append_of_pos (by simp)]
    simp

theorem Opener.delimiter {behind opener rest : List Char} {d : Char}
    (h : Opener behind opener d rest) : d = '"' ∨ d = '\'' := by
  cases h with
  | double => exact .inl rfl
  | single => exact .inr rfl
  | raw => exact .inl rfl

theorem Opener.ne_backslash {behind opener rest : List Char} {d : Char}
    (h : Opener behind opener d rest) : d ≠ '\\' := by
  rcases h.delimiter with rfl | rfl <;> decide

theorem Opener.ne_nil {behind opener rest : List Char} {d : Char}
    (h : Opener behind opener d rest) : opener ≠ [] := by cases h <;> simp

theorem Opener.passes {behind opener rest : List Char} {d : Char}
    (h : Opener behind opener d rest) :
    Mode.code.Passes behind opener rest .literal (.literal d) := by
  cases h with
  | double => exact .one (by simp [Mode.step])
  | single hq => exact .one (by simp [Mode.step, hq])
  | raw hashes rest hbehind =>
    refine .cons (n := .rawOpening) ?_ (Mode.passes_hashes hashes)
    have hraw : opensRaw (List.replicate hashes '#' ++ '"' :: rest) = true :=
      (opensRaw_iff _).2 ⟨hashes, rest, rfl⟩
    simp [Mode.step, (allowsRaw_iff behind).2 hbehind, hraw]

theorem step_of_not_opens {behind rest : List Char} {c : Char} (h : ¬ Opens behind (c :: rest)) :
    Mode.code.step behind c rest = (.code, .code) := by
  simp only [Opens, not_or, not_exists, not_and] at h
  obtain ⟨hline, hblock, hliteral⟩ := h
  have hhead : ∀ x, rest.head? = some x → [c, x] <+: c :: rest := by
    intro x hx
    obtain ⟨more, rfl⟩ := List.head?_eq_some_iff.1 hx
    exact ⟨more, rfl⟩
  have h₁ : ¬ (c = '/' ∧ rest.head? = some '/') := by
    intro hgiven
    obtain ⟨rfl, hx⟩ := hgiven
    exact hline (hhead _ hx)
  have h₂ : ¬ (c = '/' ∧ rest.head? = some '*') := by
    intro hgiven
    obtain ⟨rfl, hx⟩ := hgiven
    exact hblock (hhead _ hx)
  have h₃ : c ≠ '"' := by
    intro heq
    subst heq
    exact hliteral _ _ _ (.double rest) rfl
  have h₄ : ¬ (c = '\'' ∧ opensQuoted rest = true) := by
    intro hgiven
    obtain ⟨rfl, hq⟩ := hgiven
    exact hliteral _ _ _ (.single hq) rfl
  have h₅ : ¬ (c = 'r' ∧ allowsRaw behind = true ∧ opensRaw rest = true) := by
    intro hgiven
    obtain ⟨rfl, hbehind, hraw⟩ := hgiven
    obtain ⟨hashes, more, rfl⟩ := (opensRaw_iff rest).1 hraw
    exact hliteral _ _ _ (.raw hashes more ((allowsRaw_iff behind).1 hbehind)) (by simp)
  simp [Mode.step, h₁, h₂, h₃, h₄, h₅]

theorem Segment.passes {behind text rest : List Char} {role : Role}
    (h : Segment behind text rest role) : Mode.code.Passes behind text rest role .code := by
  cases h with
  | code hno => exact .one (step_of_not_opens hno)
  | blockComment rest hbody =>
    obtain ⟨body, rfl, hend⟩ := hbody
    exact .cons (n := .commentOpening none) (by simp [Mode.step])
      (.cons (n := .blockComment none) rfl (Mode.passes_comment hend))
  | literal hopen hbody => exact hopen.passes.append (Mode.passes_literal hopen.ne_backslash hbody)

theorem LastSegment.passes {behind text : List Char} {role : Role} {s : Carry}
    (h : LastSegment behind text role s) :
    ∃ m, Mode.code.Passes behind text [] role m ∧ m.carry = s := by
  cases h with
  | lineComment body =>
    exact ⟨.lineComment, .cons (n := .lineComment) (by simp [Mode.step])
      Mode.passes_lineComment, rfl⟩
  | blockComment hbody =>
    exact ⟨.blockComment none, .cons (n := .commentOpening none) (by simp [Mode.step])
      (.cons (n := .blockComment none) rfl (Mode.passes_openComment hbody)), rfl⟩
  | @literal _ _ d hopen hbody =>
    refine ⟨.literal d, Mode.Passes.append ?_ (Mode.passes_openLiteral hopen.ne_backslash hbody), rfl⟩
    simpa using hopen.passes

theorem Segments.run {behind text : List Char} {roles : List Role} {s : Carry}
    (h : Segments behind text roles s) :
    (Mode.code.run behind text).1 = roles ∧ (Mode.code.run behind text).2.carry = s := by
  induction h with
  | nil => exact ⟨rfl, rfl⟩
  | cons hseg _ ih =>
    have hpass := hseg.passes
    unfold Mode.Passes at hpass
    rw [hpass]
    exact ⟨by rw [ih.1], ih.2⟩
  | last hlast =>
    obtain ⟨m, hpass, hm⟩ := hlast.passes
    rw [hpass.run_end]
    exact ⟨rfl, hm⟩

/-- What a line of a text can leave open. -/
def Carry.Plain (s : Carry) : Prop :=
  s = .neutral ∨ s = ⟨true, none⟩ ∨ ∃ d, s = ⟨false, some d⟩ ∧ (d = '"' ∨ d = '\'')

theorem Carry.Plain.delimiter {d : Char} (h : Carry.Plain ⟨false, some d⟩) : d ≠ '\\' := by
  rcases h with h | h | ⟨e, h, he⟩
  · simp [Carry.neutral] at h
  · simp at h
  · obtain rfl : d = e := by simpa using h
    rcases he with rfl | rfl <;> decide

theorem LastSegment.plain {behind text : List Char} {role : Role} {s : Carry}
    (h : LastSegment behind text role s) : s.Plain := by
  cases h with
  | lineComment => exact .inl rfl
  | blockComment => exact .inr (.inl rfl)
  | literal hopen => exact .inr (.inr ⟨_, rfl, hopen.delimiter⟩)

theorem Segments.plain {behind text : List Char} {roles : List Role} {s : Carry}
    (h : Segments behind text roles s) : s.Plain := by
  induction h with
  | nil => exact .inl rfl
  | cons _ _ ih => exact ih
  | last hlast => exact hlast.plain

theorem Reading.plain {s s' : Carry} {line : List Char} {roles : List Role}
    (h : Reading s line roles s') (hs : s.Plain) : s'.Plain := by
  cases h with
  | fresh h => exact h.plain
  | comment _ h => exact h.plain
  | inComment => exact hs
  | literal _ h => exact h.plain
  | inLiteral => exact hs

/-- A line has one reading at most: its classification. -/
theorem Reading.eq_classify {s s' : Carry} {line : List Char} {roles : List Role} (hs : s.Plain)
    (h : Reading s line roles s') :
    (classify s line).1.map (·.role) = roles ∧ (classify s line).2 = s' := by
  obtain ⟨hroles, hcarry⟩ := classify_run s line
  rw [hroles, hcarry]
  cases h with
  | fresh h => exact h.run
  | @comment text rest roles _ htext hrest =>
    obtain ⟨body, rfl, hend⟩ := htext
    have hpass : (Mode.blockComment none).Passes [] (body ++ ['*', '/']) rest .blockComment .code :=
      Mode.passes_comment hend
    unfold Mode.Passes at hpass
    rw [List.append_nil] at hpass
    have hrun := hrest.run
    simp only [Mode.ofCarry, if_true, hpass]
    exact ⟨by rw [← hrun.1], hrun.2⟩
  | inComment hopen =>
    have hpass : (Mode.blockComment none).Passes [] line [] .blockComment (.blockComment none) :=
      Mode.passes_openComment hopen
    have hrun := hpass.run_end
    simp only [Mode.ofCarry, if_true, hrun]
    exact ⟨trivial, rfl⟩
  | @literal text rest roles _ d htext hrest =>
    have hpass : (Mode.literal d).Passes [] text rest .literal .code :=
      Mode.passes_literal hs.delimiter htext
    unfold Mode.Passes at hpass
    rw [List.append_nil] at hpass
    have hrun := hrest.run
    simp only [Mode.ofCarry, Mode.ofDelimiter, Bool.false_eq_true, if_false, hpass]
    exact ⟨by rw [hrun.1], hrun.2⟩
  | @inLiteral _ d hopen =>
    have hpass : (Mode.literal d).Passes [] line [] .literal (.literal d) :=
      Mode.passes_openLiteral hs.delimiter hopen
    have hrun := hpass.run_end
    simp only [Mode.ofCarry, Mode.ofDelimiter, Bool.false_eq_true, if_false, hrun]
    exact ⟨trivial, rfl⟩

theorem comment_split (w : List Char) :
    OpenComment w ∨ ∃ text rest, w = text ++ rest ∧ ClosedComment text := by
  induction w with
  | nil =>
    left
    intro h
    simp at h
  | cons c w ih =>
    by_cases hend : ['*', '/'] <+: c :: w
    · obtain ⟨rest, hrest⟩ := hend
      refine .inr ⟨['*', '/'], rest, hrest.symm, [], rfl, fun h => ?_⟩
      have := h.length_le
      simp at this
    · rcases ih with hopen | ⟨text, rest, rfl, body, rfl, hbody⟩
      · refine .inl fun h => ?_
        rcases List.infix_cons_iff.1 h with h | h
        · exact hend h
        · exact hopen h
      · refine .inr ⟨c :: (body ++ ['*', '/']), rest, rfl, c :: body, rfl, fun h => ?_⟩
        rcases List.infix_cons_iff.1 h with h | h
        · -- an end at the front would be one of the whole text
          refine hend ?_
          obtain ⟨more, hmore⟩ := h
          cases body with
          | nil => simp at hmore
          | cons d body =>
            simp only [List.cons_append, List.nil_append, List.cons.injEq] at hmore
            obtain ⟨rfl, rfl, -⟩ := hmore
            exact ⟨body ++ ['*', '/'] ++ rest, by simp⟩
        · exact hbody h

theorem literal_split (d : Char) (w : List Char) :
    OpenLiteral d w ∨ ∃ text rest, w = text ++ rest ∧ ClosedLiteral d text := by
  match w with
  | [] => exact .inl (.inl .nil)
  | [c] =>
    by_cases hd : c = d
    · exact .inr ⟨[c], [], rfl, [], by simp [hd], .nil⟩
    · by_cases hc : c = '\\'
      · exact .inl (.inr ⟨[], by simp [hc], .nil⟩)
      · exact .inl (.inl (.plain hc hd .nil))
  | c :: e :: w =>
    by_cases hc : c = '\\'
    · rcases literal_split d w with (h | ⟨body, rfl, h⟩) | ⟨text, rest, rfl, body, rfl, h⟩
      · exact .inl (.inl (hc ▸ .escape h))
      · exact .inl (.inr ⟨c :: e :: body, rfl, hc ▸ .escape h⟩)
      · exact .inr ⟨c :: e :: (body ++ [d]), rest, rfl, c :: e :: body, rfl, hc ▸ .escape h⟩
    · by_cases hd : c = d
      · exact .inr ⟨[c], e :: w, rfl, [], by simp [hd], .nil⟩
      · rcases literal_split d (e :: w) with (h | ⟨body, hw, h⟩) | ⟨text, rest, hw, body, rfl, h⟩
        · exact .inl (.inl (.plain hc hd h))
        · exact .inl (.inr ⟨c :: body, by simp [hw], .plain hc hd h⟩)
        · exact .inr ⟨c :: (body ++ [d]), rest, by simp [hw], c :: body, rfl, .plain hc hd h⟩

/-- Every text is read as segments. -/
theorem exists_segments (n : Nat) (behind line : List Char) (hn : line.length ≤ n) :
    ∃ roles s, Segments behind line roles s := by
  induction n generalizing behind line with
  | zero =>
    obtain rfl : line = [] := List.length_eq_zero_iff.1 (by omega)
    exact ⟨_, _, .nil behind⟩
  | succ n ih =>
    -- a segment that ends before the line does leaves a shorter rest
    have hcons : ∀ text rest role, line = text ++ rest → text ≠ [] →
        Segment behind text rest role → ∃ roles s, Segments behind line roles s := by
      rintro text rest role rfl htext hseg
      have hpos := List.length_pos_iff.2 htext
      rw [List.length_append] at hn
      obtain ⟨roles, s, h⟩ := ih (text.reverse ++ behind) rest (by omega)
      exact ⟨_, _, .cons hseg h⟩
    cases line with
    | nil => exact ⟨_, _, .nil behind⟩
    | cons c rest =>
      by_cases hopens : Opens behind (c :: rest)
      · rcases hopens with ⟨body, hbody⟩ | ⟨body, hbody⟩ | ⟨opener, d, body, hopen, hbody⟩
        · rw [← hbody]
          exact ⟨_, _, .last (.lineComment body)⟩
        · rcases comment_split body with h | ⟨text, rest', rfl, h⟩
          · rw [← hbody]
            exact ⟨_, _, .last (.blockComment h)⟩
          · exact hcons ('/' :: '*' :: text) rest' _ hbody.symm (by simp) (.blockComment rest' h)
        · rcases literal_split d body with h | ⟨text, rest', rfl, h⟩
          · rw [hbody]
            exact ⟨_, _, .last (.literal hopen h)⟩
          · refine hcons (opener ++ text) rest' _ (by rw [hbody, List.append_assoc]) ?_ (.literal hopen h)
            simp [hopen.ne_nil]
      · exact hcons [c] rest _ rfl (by simp) (.code hopens)

theorem exists_reading {s : Carry} (hs : s.Plain) (line : List Char) :
    ∃ roles s', Reading s line roles s' := by
  have hsegments := fun behind rest => exists_segments (List.length rest) behind rest (Nat.le_refl _)
  rcases hs with rfl | rfl | ⟨d, rfl, -⟩
  · obtain ⟨roles, s', h⟩ := hsegments [] line
    exact ⟨_, _, .fresh h⟩
  · rcases comment_split line with h | ⟨text, rest, rfl, h⟩
    · exact ⟨_, _, .inComment h⟩
    · obtain ⟨roles, s', hrest⟩ := hsegments text.reverse rest
      exact ⟨_, _, .comment h hrest⟩
  · rcases literal_split d line with h | ⟨text, rest, rfl, h⟩
    · exact ⟨_, _, .inLiteral h⟩
    · obtain ⟨roles, s', hrest⟩ := hsegments text.reverse rest
      exact ⟨_, _, .literal h hrest⟩

theorem Reachable.plain {s : Carry} (h : Reachable s) : s.Plain := by
  induction h with
  | start => exact .inl rfl
  | line text _ ih =>
    obtain ⟨roles, s', hread⟩ := exists_reading ih text
    rw [(hread.eq_classify ih).2]
    exact hread.plain ih

/-- Classification gives each character of a line one cell, in order and in its place, and gives the
line its only reading. -/
theorem classify_reading {s : Carry} (hs : Reachable s) (line : List Char) :
    (classify s line).1.map (·.char) = line ∧
    (∀ i c, (classify s line).1[i]? = some c → c.offset = Utf8.byteLength (line.take i)) ∧
    ∀ roles s', Reading s line roles s' ↔
      (classify s line).1.map (·.role) = roles ∧ (classify s line).2 = s' := by
  refine ⟨classify_chars s line, fun i c hc => ?_, fun roles s' => ⟨Reading.eq_classify hs.plain, ?_⟩⟩
  · simpa using classifyFrom_offset hc
  · intro hgiven
    obtain ⟨rfl, rfl⟩ := hgiven
    obtain ⟨roles, s', h⟩ := exists_reading hs.plain line
    obtain ⟨hroles, hcarry⟩ := h.eq_classify hs.plain
    rwa [hroles, hcarry]

theorem classify_reading_in_comment : Reachable ⟨true, none⟩ ∧ ∀ roles s',
    Reading ⟨true, none⟩ ['*', '/', '\'', '{', '\''] roles s' ↔
      [.blockComment, .blockComment, .literal, .literal, .literal] = roles ∧ .neutral = s' :=
  have hs : Reachable ⟨true, none⟩ := .line ['/', '*'] .start
  ⟨hs, (classify_reading hs ['*', '/', '\'', '{', '\'']).2.2⟩

end CodeFolding
