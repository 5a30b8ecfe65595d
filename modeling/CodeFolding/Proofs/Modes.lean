import CodeFolding.Proofs.Segments

/-!
The mode of the reader at each place of a line.

A row keeps the role of each character; the mode before a character says more, whether the character
is part of a delimiter or stands inside. The modes next to a live character are known, and so are
those behind plain text.
-/

set_option autoImplicit false

namespace CodeFolding

/-- The mode before character `i` of the rest of a line. -/
def Mode.reach (behind : List Char) (m : Mode) : List Char → Nat → Mode
  | c :: rest, i + 1 => reach (c :: behind) (m.step behind c rest).2 rest i
  | _, _ => m

def Row.mode (r : Row) (i : Nat) : Mode := (Mode.ofCarry r.before).reach [] r.text i

/-- Character `i` of a row stands inside a comment or a literal: it is neither code nor part of a
delimiter. (The second slash of `//` counts as inside; no other character can take its place.) -/
def Row.Inside (r : Row) (i : Nat) : Prop :=
  match r.mode i with
  | .code | .commentOpening _ | .commentClosing _ | .rawOpening => False
  | .lineComment | .escaped _ => True
  | .blockComment _ => ¬ ['*', '/'] <+: r.text.drop i
  | .literal d => r.text[i]? ≠ some d

def Row.Live (r : Row) (i : Nat) : Prop := ∃ c, r.cells[i]? = some c ∧ c.isLive = true

/-- A row as classification leaves it, in some text. -/
structure Row.Read (r : Row) : Prop where
  cells : r.cells = (classify r.before r.text).1
  plain : r.before.Plain

theorem Row.read_of_mem {s : Carry} (hs : Reachable s) {lines : List (List Char)} {r : Row}
    (h : r ∈ Row.ofLines s lines) : r.Read := by
  induction lines generalizing s with
  | nil => simp [Row.ofLines] at h
  | cons line rest ih =>
    rw [Row.ofLines] at h
    rcases List.mem_cons.1 h with rfl | h
    · exact ⟨rfl, hs.plain⟩
    · exact ih (.line line hs) h

namespace Mode

theorem reach_of_drop {behind : List Char} {m : Mode} {line : List Char} {i : Nat} {c : Char}
    {rest : List Char} (h : line.drop i = c :: rest) :
    m.reach behind line (i + 1) =
      ((m.reach behind line i).step ((line.take i).reverse ++ behind) c rest).2 := by
  induction line generalizing behind m i with
  | nil => simp at h
  | cons x line ih =>
    cases i with
    | zero =>
      obtain ⟨rfl, rfl⟩ := List.cons.inj h
      cases line <;> simp [reach]
    | succ i => simpa [reach] using @ih (x :: behind) (m.step behind x line).2 i h

theorem reach_of_length_le {behind : List Char} {m : Mode} {line : List Char} {i : Nat}
    (h : line.length ≤ i) : m.reach behind line (i + 1) = m.reach behind line i := by
  induction line generalizing behind m i with
  | nil => simp [reach]
  | cons x line ih =>
    cases i with
    | zero => simp at h
    | succ i => simpa [reach] using ih (by simpa using h)

end Mode

theorem classifyFrom_role {behind : List Char} {offset : Nat} {m : Mode} {line : List Char}
    {i : Nat} {c : Char} {rest : List Char} (h : line.drop i = c :: rest) :
    (classifyFrom behind offset m line).1[i]?.map (·.role) =
      some ((m.reach behind line i).step ((line.take i).reverse ++ behind) c rest).1 := by
  induction line generalizing behind offset m i with
  | nil => simp at h
  | cons x line ih =>
    cases i with
    | zero =>
      obtain ⟨rfl, rfl⟩ := List.cons.inj h
      simp [classifyFrom, Mode.reach]
    | succ i => simpa [classifyFrom, Mode.reach] using ih h

namespace Mode

/-- What a mode says of the text that comes. -/
def Sound (rest : List Char) : Mode → Prop
  | .code | .lineComment => True
  | .commentOpening u | .blockComment u => u = none
  | .commentClosing u => u = none ∧ rest.head? = some '/'
  | .literal d | .escaped d => d = '"' ∨ d = '\''
  | .rawOpening => opensRaw rest = true

theorem Sound.step {m : Mode} {c : Char} {rest : List Char} (h : m.Sound (c :: rest))
    (behind : List Char) : (m.step behind c rest).2.Sound rest := by
  cases m with
  | code =>
    simp only [Mode.step]
    split
    · trivial
    · split
      · rfl
      · split
        · exact .inl rfl
        · split
          · exact .inr rfl
          · split
            · rename_i hraw
              exact hraw.2.2
            · trivial
  | lineComment => trivial
  | commentOpening u => exact h
  | blockComment u =>
    simp only [Mode.step]
    split
    · rename_i hend
      exact ⟨h, hend.2⟩
    · exact h
  | commentClosing u =>
    obtain ⟨rfl, -⟩ := h
    trivial
  | literal d =>
    simp only [Mode.step]
    split
    · exact h
    · split
      · trivial
      · exact h
  | escaped d => exact h
  | rawOpening =>
    simp only [Mode.step]
    split
    · exact .inl rfl
    · rename_i hc
      by_cases hhash : c = '#'
      · simpa [Sound, opensRaw, hhash] using h
      · exact absurd (by simpa [Sound, opensRaw, hhash] using h) hc

/-- Only code has live characters, and it goes on behind one. -/
theorem code_of_role {m : Mode} {behind rest : List Char} {c : Char}
    (h : (m.step behind c rest).1 = .code) : m = .code ∧ (m.step behind c rest).2 = .code := by
  cases m with
  | code =>
    generalize hstep : code.step behind c rest = next at h
    simp only [Mode.step] at hstep
    repeat' split at hstep
    all_goals subst hstep
    all_goals simp at h
    exact ⟨rfl, rfl⟩
  | lineComment => simp [Mode.step] at h
  | commentOpening u => simp [Mode.step] at h
  | blockComment u =>
    simp only [Mode.step] at h
    split at h <;> simp at h
  | commentClosing u => simp [Mode.step] at h
  | literal d =>
    simp only [Mode.step] at h
    repeat' split at h
    all_goals simp at h
  | escaped d => simp [Mode.step] at h
  | rawOpening => simp [Mode.step] at h

/-- The characters that can begin or end a comment or a literal, the `r` of a raw one apart. -/
def fences : List Char := ['/', '"', '\'']

/-- A character that is not live and comes before code ends a comment or a literal. -/
theorem fence_of_code {m : Mode} {behind rest : List Char} {c : Char} (hs : m.Sound (c :: rest))
    (hrole : (m.step behind c rest).1 ≠ .code) (hnext : (m.step behind c rest).2 = .code) :
    c ∈ fences ∧ (m = .commentClosing none ∨ m = .literal c) := by
  cases m with
  | code =>
    simp only [Mode.step] at hrole hnext
    repeat' split at hnext
    all_goals simp_all
  | lineComment => simp [Mode.step] at hnext
  | commentOpening u => simp [Mode.step] at hnext
  | blockComment u =>
    simp only [Mode.step] at hnext
    split at hnext <;> simp at hnext
  | commentClosing u =>
    obtain ⟨rfl, hhead⟩ := hs
    obtain rfl : c = '/' := by simpa using hhead
    simp [fences]
  | literal d =>
    simp only [Mode.step] at hnext
    split at hnext
    · simp at hnext
    · split at hnext
      · rename_i hc
        subst hc
        rcases hs with rfl | rfl <;> simp [fences]
      · simp at hnext
  | escaped d => simp [Mode.step] at hnext
  | rawOpening =>
    simp only [Mode.step] at hnext
    split at hnext <;> simp at hnext

theorem opens_of_code {behind rest : List Char} {c : Char}
    (hrole : (Mode.code.step behind c rest).1 ≠ .code) : c ∈ 'r' :: fences := by
  by_cases hc : c ∈ 'r' :: fences
  · exact hc
  · simp only [fences, List.mem_cons, List.not_mem_nil, or_false, not_or] at hc
    obtain ⟨hr, hslash, hdouble, hsingle⟩ := hc
    simp [Mode.step, hr, hslash, hdouble, hsingle] at hrole

end Mode
/-- Characters that open and end nothing behind `prev`. An `r` is one of them in an identifier that
did not begin with it; a `b` may be the prefix of a raw literal. -/
def quietChar (prev : Option Char) (c : Char) : Bool :=
  !(['/', '*', '"', '\'', '\\'].contains c) &&
    (c != 'r' || prev.any fun p => p != 'b' && continuesIdentifier p)

def quiet (prev : Option Char) : List Char → Bool
  | [] => true
  | c :: rest => quietChar prev c && quiet (some c) rest

namespace Mode

/-- Modes that last over quiet text. -/
def Settled : Mode → Prop
  | .code | .lineComment | .blockComment _ | .literal _ => True
  | .commentOpening _ | .commentClosing _ | .escaped _ | .rawOpening => False

theorem step_quiet {m : Mode} {prev : Option Char} {behind rest : List Char} {c : Char}
    (hm : m.Settled) (hs : m.Sound (c :: rest)) (hc : quietChar prev c = true)
    (hprev : ∀ p, prev = some p → behind.head? = some p) :
    (m.step behind c rest).2 = m ∧ (m = .code → (m.step behind c rest).1 = .code) := by
  simp only [quietChar, Bool.and_eq_true, Bool.not_eq_true', List.contains_eq_mem,
    List.mem_cons, List.not_mem_nil, or_false, decide_eq_false_iff_not, not_or] at hc
  obtain ⟨⟨hslash, hstar, hdouble, hsingle, hback⟩, hr⟩ := hc
  cases m with
  | code =>
    have hraw : ¬ (c = 'r' ∧ allowsRaw behind = true ∧ opensRaw rest = true) := by
      intro hgiven
      obtain ⟨rfl, hallows, -⟩ := hgiven
      cases prev with
      | none => simp at hr
      | some p =>
        obtain ⟨more, rfl⟩ := List.head?_eq_some_iff.1 (hprev p rfl)
        simp only [bne_self_eq_false, Bool.false_or, Option.any_some, Bool.and_eq_true,
          bne_iff_ne] at hr
        exact (allowsRaw_iff _).1 hallows ⟨p, more, rfl, hr.2, fun hb => hr.1 hb.1⟩
    simp [step, hslash, hdouble, hsingle, hraw]
  | lineComment => exact ⟨rfl, fun h => by simp at h⟩
  | blockComment u => simp [step, hstar]
  | literal d =>
    have hd : c ≠ d := by rcases hs with rfl | rfl <;> assumption
    simp [step, hback, hd]
  | commentOpening u => exact hm.elim
  | commentClosing u => exact hm.elim
  | escaped d => exact hm.elim
  | rawOpening => exact hm.elim

theorem settled_of_stop {m : Mode} {behind rest : List Char} {c : Char} (hs : m.Sound (c :: rest))
    (hc : c = ')' ∨ c = '"') : (m.step behind c rest).2.Settled := by
  have hslash : c ≠ '/' := by rcases hc with rfl | rfl <;> decide
  have hstar : c ≠ '*' := by rcases hc with rfl | rfl <;> decide
  have hback : c ≠ '\\' := by rcases hc with rfl | rfl <;> decide
  have hr : c ≠ 'r' := by rcases hc with rfl | rfl <;> decide
  cases m with
  | code =>
    simp only [step, hslash, hr, false_and, if_false]
    repeat' split
    all_goals trivial
  | lineComment => trivial
  | commentOpening u => trivial
  | blockComment u => simp [step, hstar, Settled]
  | commentClosing u =>
    obtain ⟨rfl, -⟩ := hs
    trivial
  | literal d =>
    simp only [step, hback, false_and, if_false]
    split <;> trivial
  | escaped d => trivial
  | rawOpening =>
    rcases hc with rfl | rfl
    · simp [Sound, opensRaw] at hs
    · simp [step, Settled]

def Unquoted (m : Mode) : Prop := m ≠ .literal '"' ∧ m ≠ .escaped '"'

theorem Unquoted.step {m : Mode} {behind rest : List Char} {c : Char} (h : m.Unquoted)
    (hs : m.Sound (c :: rest)) (hc : c ≠ '"') : (m.step behind c rest).2.Unquoted := by
  cases m with
  | code =>
    simp only [Mode.step, hc, if_false]
    repeat' split
    all_goals simp [Unquoted]
  | lineComment => simp [Mode.step, Unquoted]
  | commentOpening u => simp [Mode.step, Unquoted]
  | blockComment u =>
    simp only [Mode.step]
    split <;> simp [Unquoted]
  | commentClosing u =>
    obtain ⟨rfl, -⟩ := hs
    simp [Mode.step, ofDelimiter, Unquoted]
  | literal d =>
    have hd : d ≠ '"' := by simpa [Unquoted] using h
    simp only [Mode.step]
    repeat' split
    all_goals simp [Unquoted, hd]
  | escaped d =>
    have hd : d ≠ '"' := by simpa [Unquoted] using h
    simp [Mode.step, Unquoted, hd]
  | rawOpening => simp [Mode.step, Unquoted, hc]

/-- A double quote leads such a mode into a comment or a literal. -/
theorem Unquoted.step_quote {m : Mode} {behind rest : List Char} (h : m.Unquoted)
    (hs : m.Sound ('"' :: rest)) : (m.step behind '"' rest).2 ≠ .code := by
  cases m with
  | code => simp [Mode.step]
  | lineComment => simp [Mode.step]
  | commentOpening u => simp [Mode.step]
  | blockComment u => simp [Mode.step]
  | commentClosing u => simp [Sound] at hs
  | literal d =>
    have hd : '"' ≠ d := by simpa [Unquoted, eq_comm] using h
    simp [Mode.step, hd]
  | escaped d => simp [Mode.step]
  | rawOpening => simp [Mode.step]

theorem unquoted_of_quote {m : Mode} {behind rest : List Char} (hm : m.Settled) (hc : m ≠ .code) :
    (m.step behind '"' rest).2.Unquoted := by
  cases m with
  | code => exact absurd rfl hc
  | lineComment => simp [Mode.step, Unquoted]
  | blockComment u => simp [Mode.step, Unquoted]
  | literal d =>
    simp only [Mode.step, Char.reduceEq, false_and, if_false]
    split
    · simp [Unquoted]
    · rename_i hd
      simp [Unquoted, Ne.symm hd]
  | commentOpening u => exact hm.elim
  | commentClosing u => exact hm.elim
  | escaped d => exact hm.elim
  | rawOpening => exact hm.elim

end Mode

theorem drop_of_get {α : Type} {l : List α} {i : Nat} {x : α} (h : l[i]? = some x) :
    l.drop i = x :: l.drop (i + 1) := by
  rw [List.drop_eq_getElem?_toList_append, h]
  rfl

namespace Row

variable {r : Row} {i : Nat} {c : Char}

theorem Read.step (hr : r.Read) (h : r.text[i]? = some c) :
    (r.cells[i]?.map (·.role), r.mode (i + 1)) =
      let s := (r.mode i).step (r.text.take i).reverse c (r.text.drop (i + 1))
      (some s.1, s.2) := by
  have hdrop := drop_of_get h
  have hrole := @classifyFrom_role [] 0 (.ofCarry r.before) _ _ _ _ hdrop
  have hnext := @Mode.reach_of_drop [] (.ofCarry r.before) _ _ _ _ hdrop
  simp only [List.append_nil] at hrole hnext
  rw [hr.cells]
  exact Prod.ext hrole hnext

theorem Read.role (hr : r.Read) (h : r.text[i]? = some c) : r.cells[i]?.map (·.role) =
    some ((r.mode i).step (r.text.take i).reverse c (r.text.drop (i + 1))).1 :=
  congrArg Prod.fst (hr.step h)

theorem Read.mode_succ (hr : r.Read) (h : r.text[i]? = some c) :
    r.mode (i + 1) = ((r.mode i).step (r.text.take i).reverse c (r.text.drop (i + 1))).2 :=
  congrArg Prod.snd (hr.step h)

theorem Read.chars (hr : r.Read) : r.cells.map (·.char) = r.text := by
  rw [hr.cells, classify_chars]

theorem Read.char (hr : r.Read) (i : Nat) : r.cells[i]?.map (·.char) = r.text[i]? := by
  rw [← List.getElem?_map, hr.chars]

theorem mode_zero (r : Row) : r.mode 0 = .ofCarry r.before := by
  unfold mode Mode.reach
  split
  · contradiction
  · rfl

theorem mode_zero_sound (hr : r.Read) : (r.mode 0).Sound r.text := by
  rw [mode_zero]
  rcases hr.plain with h | h | ⟨d, h, hd⟩
  · simp [h, Carry.neutral, Mode.ofCarry, Mode.ofDelimiter, Mode.Sound]
  · simp [h, Mode.ofCarry, Mode.Sound]
  · simpa [h, Mode.ofCarry, Mode.ofDelimiter, Mode.Sound] using hd

theorem Read.sound (hr : r.Read) (i : Nat) : (r.mode i).Sound (r.text.drop i) := by
  induction i with
  | zero => simpa using mode_zero_sound hr
  | succ i ih =>
    cases h : r.text[i]? with
    | some c =>
      rw [drop_of_get h] at ih
      rw [hr.mode_succ h]
      exact ih.step _
    | none =>
      have hlen := List.getElem?_eq_none_iff.1 h
      have hmode : r.mode (i + 1) = r.mode i := Mode.reach_of_length_le hlen
      rw [List.drop_of_length_le hlen] at ih
      rwa [hmode, List.drop_of_length_le (by omega)]

theorem Read.sound_cons (hr : r.Read) (h : r.text[i]? = some c) :
    (r.mode i).Sound (c :: r.text.drop (i + 1)) := by
  rw [← drop_of_get h]
  exact hr.sound i

theorem live_iff_role : r.Live i ↔ r.cells[i]?.map (·.role) = some .code := by
  cases h : r.cells[i]? <;> simp [Live, h, Cell.isLive]

theorem Read.live_iff (hr : r.Read) (h : r.text[i]? = some c) :
    r.Live i ↔ ((r.mode i).step (r.text.take i).reverse c (r.text.drop (i + 1))).1 = .code := by
  rw [live_iff_role, hr.role h, Option.some.injEq]

theorem Live.char (hr : r.Read) (h : r.Live i) : ∃ c, r.text[i]? = some c := by
  obtain ⟨cell, hcell, -⟩ := h
  exact ⟨cell.char, by rw [← hr.char, hcell]; rfl⟩

theorem Live.mode (hr : r.Read) (h : r.Live i) : r.mode i = .code ∧ r.mode (i + 1) = .code := by
  obtain ⟨c, hc⟩ := h.char hr
  have hcode := Mode.code_of_role ((hr.live_iff hc).1 h)
  rwa [← hr.mode_succ hc] at hcode

theorem not_inside_of_code (h : r.mode i = .code) : ¬ r.Inside i := by simp [Inside, h]

theorem Read.live_or_opens (hr : r.Read) (hc : r.text[i]? = some c) (hcode : r.mode i = .code) :
    r.Live i ∨ c ∈ 'r' :: Mode.fences := by
  rw [hr.live_iff hc, hcode]
  exact Decidable.or_iff_not_imp_left.2 Mode.opens_of_code

/-- In front of code stands code, or the last character of a comment or a literal. -/
theorem Read.live_or_fence (hr : r.Read) (hc : r.text[i]? = some c) (hnext : r.mode (i + 1) = .code) :
    r.Live i ∨ (c ∈ Mode.fences ∧ ¬ r.Inside i) := by
  rw [hr.live_iff hc, Decidable.or_iff_not_imp_left]
  intro hrole
  rw [hr.mode_succ hc] at hnext
  obtain ⟨hfence, hmode⟩ := Mode.fence_of_code (hr.sound_cons hc) hrole hnext
  refine ⟨hfence, ?_⟩
  rcases hmode with hmode | hmode <;> simp [Inside, hmode, hc]

theorem Read.over_quiet (hr : r.Read) {prev : Option Char} {w t : List Char}
    (hm : (r.mode i).Settled) (hw : r.text.drop i = w ++ t)
    (hq : quiet prev w = true)
    (hprev : ∀ p, prev = some p → (r.text.take i).getLast? = some p) :
    r.mode (i + w.length) = r.mode i ∧ (r.mode i = .code → ∀ k < w.length, r.Live (i + k)) := by
  induction w generalizing i prev with
  | nil => simp
  | cons c w ih =>
    have hc : r.text[i]? = some c := by
      rw [← List.head?_drop, hw]
      rfl
    simp only [CodeFolding.quiet, Bool.and_eq_true] at hq
    obtain ⟨hmode, hlive⟩ := Mode.step_quiet hm (hr.sound_cons hc) hq.1
      (show ∀ p, prev = some p → (r.text.take i).reverse.head? = some p by simpa using hprev)
    rw [← hr.mode_succ hc] at hmode
    rw [← hr.live_iff hc] at hlive
    have hrest : r.text.drop (i + 1) = w ++ t := by
      rw [drop_of_get hc] at hw
      exact (List.cons.inj hw).2
    obtain ⟨hmode', hlive'⟩ := ih (hmode ▸ hm) hrest hq.2 (by
      rintro p ⟨⟩
      simp [List.take_add_one, hc])
    refine ⟨?_, fun hcode k hk => ?_⟩
    · rw [List.length_cons, ← hmode, ← hmode']
      congr 1
      omega
    · cases k with
      | zero => exact hlive hcode
      | succ k =>
        have := hlive' (hmode ▸ hcode) k (by simpa using hk)
        rwa [show i + 1 + k = i + (k + 1) by omega] at this

theorem mode_zero_eq_code (r : Row) : r.mode 0 = .code ↔ r.before.isInert = false := by
  rw [mode_zero]
  obtain ⟨inBlockComment, delimiter⟩ := r.before
  cases inBlockComment <;> cases delimiter <;>
    simp [Mode.ofCarry, Mode.ofDelimiter, Carry.isInert, Carry.inLiteral]

/-- No quote has been read since place `i`, so no literal in double quotes has begun. -/
theorem Read.unquoted (hr : r.Read) {k : Nat} (hik : i ≤ k) (hk : k ≤ r.text.length)
    (hno : ∀ l, i ≤ l → l < k → r.text[l]? ≠ some '"') (hm : (r.mode i).Unquoted) :
    (r.mode k).Unquoted := by
  induction k with
  | zero =>
    obtain rfl : i = 0 := by omega
    exact hm
  | succ k ih =>
    by_cases he : i = k + 1
    · rwa [← he]
    · obtain ⟨c, hc⟩ : ∃ c, r.text[k]? = some c := ⟨r.text[k], List.getElem?_eq_getElem (by omega)⟩
      rw [hr.mode_succ hc]
      refine (ih (by omega) (by omega) fun l hl hl' => hno l hl (by omega)).step
        (hr.sound_cons hc) ?_
      intro heq
      subst heq
      exact hno k (by omega) (by omega) hc

/-- A quoted name that is read inside a comment or a literal ends inside one. -/
theorem Read.closed_quote (hr : r.Read) {k : Nat} (hm : (r.mode i).Settled) (hcode : r.mode i ≠ .code)
    (hi : r.text[i]? = some '"') (hik : i < k) (hk : r.text[k]? = some '"')
    (hno : ∀ l, i < l → l < k → r.text[l]? ≠ some '"') :
    (r.mode (k + 1)).Settled ∧ r.mode (k + 1) ≠ .code := by
  have hlt : k < r.text.length := (List.getElem?_eq_some_iff.1 hk).1
  have hopen : (r.mode (i + 1)).Unquoted := by
    rw [hr.mode_succ hi]
    exact Mode.unquoted_of_quote hm hcode
  have hclose : (r.mode k).Unquoted :=
    hr.unquoted (by omega) (by omega) (fun l hl hl' => hno l (by omega) hl') hopen
  rw [hr.mode_succ hk]
  exact ⟨Mode.settled_of_stop (hr.sound_cons hk) (.inr rfl), hclose.step_quote (hr.sound_cons hk)⟩

end Row

theorem byteLength_take_inj {line : List Char} {i k : Nat} (hi : i ≤ line.length)
    (hk : k ≤ line.length) (h : Utf8.byteLength (line.take i) = Utf8.byteLength (line.take k)) :
    i = k := by
  induction line generalizing i k with
  | nil =>
    simp only [List.length_nil] at hi hk
    omega
  | cons c line ih =>
    have hpos := Char.utf8Size_pos c
    cases i with
    | zero =>
      cases k with
      | zero => rfl
      | succ k =>
        simp only [List.take_zero, List.take_succ_cons, Utf8.byteLength] at h
        omega
    | succ i =>
      cases k with
      | zero =>
        simp only [List.take_zero, List.take_succ_cons, Utf8.byteLength] at h
        omega
      | succ k =>
        simp only [List.take_succ_cons, Utf8.byteLength, Nat.add_left_cancel_iff] at h
        rw [ih (by simpa using hi) (by simpa using hk) h]

theorem Row.Read.liveAt {r : Row} {i : Nat} (hr : r.Read) (hi : i < r.text.length) :
    Cell.liveAt r.cells (Utf8.byteLength (r.text.take i)) = true ↔ r.Live i := by
  have hoffset : ∀ (k : Nat) (c : Cell), r.cells[k]? = some c →
      c.offset = Utf8.byteLength (r.text.take k) := by
    intro k c hc
    rw [hr.cells] at hc
    simpa using classifyFrom_offset hc
  obtain ⟨cell, hcell⟩ : ∃ cell, r.cells[i]? = some cell := by
    have := hr.char i
    rw [List.getElem?_eq_getElem hi, Option.map_eq_some_iff] at this
    obtain ⟨cell, hcell, -⟩ := this
    exact ⟨cell, hcell⟩
  have hfind : r.cells.find? (·.offset == Utf8.byteLength (r.text.take i)) = some cell := by
    rw [List.find?_eq_some_iff_getElem]
    obtain ⟨hlt, hget⟩ := List.getElem?_eq_some_iff.1 hcell
    refine ⟨by simp [hoffset i cell hcell], i, hlt, hget, fun k hk => ?_⟩
    have hk' := hoffset k r.cells[k] (List.getElem?_eq_getElem (by omega))
    simp only [hk', Bool.not_eq_true', beq_eq_false_iff_ne]
    intro heq
    have := byteLength_take_inj (by omega) (by omega) heq
    omega
  simp [Cell.liveAt, hfind, Row.Live, hcell]

end CodeFolding
