import CodeFolding.Proofs.Anchors
import CodeFolding.Proofs.LineTable

/-!
Which lines the import statements of a text have.

A statement has a line with a `use` on it, the run of attribute lines right above that line, and the
lines up to its terminator. The search keeps a count of attribute lines or an open statement; both
are told here by the lines read so far.
-/

set_option autoImplicit false

namespace CodeFolding

namespace Cell

def live (cells : List Cell) : List Char := (cells.filter isLive).map (·.char)

theorem live_append (xs ys : List Cell) : live (xs ++ ys) = live xs ++ live ys := by simp [live]

/-- Cells that begin with a live `use`, which stands alone behind the character `before`. -/
def BeginsUse (before : Option Char) (cells : List Cell) : Prop :=
  ∃ u s e rest, cells = u :: s :: e :: rest ∧ u.char = 'u' ∧ s.char = 's' ∧ e.char = 'e' ∧
    u.isLive = true ∧ e.isLive = true ∧
    (∀ c, before = some c → isBlank c = true ∨ c = '(' ∨ c = '[' ∨ c = '{') ∧
    ∀ c, rest.head? = some c → isBlank c.char = true

/-- A live `use` that stands alone between `front` and what follows it in `back`. -/
def UseAt (cells front back : List Cell) : Prop :=
  cells = front ++ back ∧ BeginsUse (front.getLast?.map (·.char)) back

theorem allowsUse_iff (before : Option Char) :
    allowsUse before = true ↔
      ∀ c, before = some c → isBlank c = true ∨ c = '(' ∨ c = '[' ∨ c = '{' := by
  cases before with
  | none => simp [allowsUse]
  | some c => simp [allowsUse, or_assoc]

theorem startsUse_iff (before : Option Char) (cells : List Cell) :
    startsUse before cells = true ↔ BeginsUse before cells := by
  constructor
  · intro h
    unfold startsUse at h
    split at h
    · rename_i u s e rest
      simp only [Bool.and_eq_true, decide_eq_true_eq] at h
      obtain ⟨⟨⟨⟨⟨⟨hu, he⟩, hcu⟩, hcs⟩, hce⟩, hbefore⟩, hrest⟩ := h
      refine ⟨u, s, e, rest, rfl, hcu, hcs, hce, hu, he, (allowsUse_iff before).1 hbefore, ?_⟩
      intro c hc
      cases rest with
      | nil => simp at hc
      | cons d rest =>
        obtain rfl := Option.some.inj hc
        exact hrest
    · simp at h
  · intro hgiven
    obtain ⟨u, s, e, rest, rfl, hcu, hcs, hce, hu, he, hbefore, hrest⟩ := hgiven
    cases rest with
    | nil => simp [startsUse, hu, he, hcu, hcs, hce, (allowsUse_iff before).2 hbefore]
    | cons d rest =>
      simp [startsUse, hu, he, hcu, hcs, hce, (allowsUse_iff before).2 hbefore, hrest d rfl]

def charBefore (before : Option Char) (front : List Cell) : Option Char :=
  (front.getLast?.map (·.char)).or before

theorem charBefore_cons (before : Option Char) (c : Cell) (front : List Cell) :
    charBefore before (c :: front) = charBefore (some c.char) front := by
  simp only [charBefore, List.getLast?_cons]
  cases front.getLast? <;> rfl

theorem charBefore_none (front : List Cell) :
    charBefore none front = front.getLast?.map (·.char) := by simp [charBefore]

theorem fromUse?_spec {before : Option Char} {cells back : List Cell}
    (h : fromUse? before cells = some back) :
    ∃ front, cells = front ++ back ∧ BeginsUse (charBefore before front) back ∧
      ∀ front' back', cells = front' ++ back' → BeginsUse (charBefore before front') back' →
        front.length ≤ front'.length := by
  induction cells generalizing before with
  | nil => simp [fromUse?] at h
  | cons c rest ih =>
    by_cases hc : startsUse before (c :: rest) = true
    · simp only [fromUse?, hc, if_true, Option.some.injEq] at h
      subst h
      exact ⟨[], rfl, (startsUse_iff _ _).1 hc, fun _ _ _ _ => Nat.zero_le _⟩
    · simp only [fromUse?, hc] at h
      obtain ⟨front, rfl, huse, hfirst⟩ := ih (by simpa using h)
      refine ⟨c :: front, rfl, by rw [charBefore_cons]; exact huse, ?_⟩
      intro front' back' hsplit huse'
      cases front' with
      | nil =>
        simp only [List.nil_append] at hsplit
        subst hsplit
        exact absurd ((startsUse_iff _ _).2 huse') hc
      | cons d front' =>
        simp only [List.cons_append, List.cons.injEq] at hsplit
        obtain ⟨rfl, hsplit⟩ := hsplit
        rw [charBefore_cons] at huse'
        have := hfirst front' back' hsplit huse'
        simp only [List.length_cons]
        omega

theorem fromUse?_none {before : Option Char} {cells : List Cell}
    (h : fromUse? before cells = none) {front back : List Cell} (hsplit : cells = front ++ back) :
    ¬ BeginsUse (charBefore before front) back := by
  induction cells generalizing before front with
  | nil =>
    obtain ⟨rfl, rfl⟩ := List.append_eq_nil_iff.1 hsplit.symm
    intro hgiven
    obtain ⟨u, s, e, rest, hcells, -⟩ := hgiven
    simp at hcells
  | cons c rest ih =>
    by_cases hc : startsUse before (c :: rest) = true
    · simp [fromUse?, hc] at h
    · cases front with
      | nil =>
        simp only [List.nil_append] at hsplit
        subst hsplit
        exact fun huse => hc ((startsUse_iff _ _).2 huse)
      | cons d front =>
        simp only [List.cons_append, List.cons.injEq] at hsplit
        obtain ⟨rfl, hsplit⟩ := hsplit
        rw [charBefore_cons]
        exact ih (by simpa [fromUse?, hc] using h) hsplit

end Cell

/-- How many more braces a text opens than it closes. -/
def braceDepth (w : List Char) : Int := (w.count '{' : Int) - w.count '}'

/-- A text ends a statement, by the depth behind each beginning of the text: at a `;` of depth zero,
or at a `}` that makes the depth negative. -/
def EndsBy (depth : List Char → Int) (w : List Char) : Prop :=
  ∃ p c q, w = p ++ c :: q ∧
    ((c = ';' ∧ depth p = 0) ∨ (c = '}' ∧ depth (p ++ [c]) < 0))

/-- A statement of depth `d` before a text ends in it. The depth is a word of 32 bits. -/
def Terminates (d : Int32) (w : List Char) : Prop :=
  EndsBy (fun p => (d + .ofInt (braceDepth p)).toInt) w

theorem EndsBy.append {depth : List Char → Int} {w : List Char} (h : EndsBy depth w)
    (v : List Char) : EndsBy depth (w ++ v) := by
  obtain ⟨p, c, q, rfl, hc⟩ := h
  exact ⟨p, c, q ++ v, by simp, hc⟩

theorem not_endsBy_nil (depth : List Char → Int) : ¬ EndsBy depth [] := by
  intro hgiven
  obtain ⟨p, c, q, h, -⟩ := hgiven
  simp at h

theorem endsBy_cons {depth : List Char → Int} {c : Char} {w : List Char} :
    EndsBy depth (c :: w) ↔ (c = ';' ∧ depth [] = 0) ∨ (c = '}' ∧ depth [c] < 0) ∨
      EndsBy (fun p => depth (c :: p)) w := by
  rw [← or_assoc]
  constructor
  · intro hgiven
    obtain ⟨p, x, q, hsplit, hx⟩ := hgiven
    cases p with
    | nil =>
      simp only [List.nil_append, List.cons.injEq] at hsplit
      obtain ⟨rfl, rfl⟩ := hsplit
      exact .inl hx
    | cons y p =>
      simp only [List.cons_append, List.cons.injEq] at hsplit
      obtain ⟨rfl, rfl⟩ := hsplit
      exact .inr ⟨p, x, q, rfl, hx⟩
  · rintro (hx | ⟨p, x, q, rfl, hx⟩)
    · exact ⟨[], c, w, rfl, hx⟩
    · exact ⟨c :: p, x, q, rfl, hx⟩

@[simp] theorem braceDepth_nil : braceDepth [] = 0 := rfl

@[simp] theorem braceDepth_open : braceDepth ['{'] = 1 := rfl

@[simp] theorem braceDepth_close : braceDepth ['}'] = -1 := rfl

theorem braceDepth_other {c : Char} (ho : c ≠ '{') (hc : c ≠ '}') : braceDepth [c] = 0 := by
  simp [braceDepth, ho, hc]

theorem braceDepth_cons (c : Char) (w : List Char) :
    braceDepth (c :: w) = braceDepth [c] + braceDepth w := by
  simp only [braceDepth, List.count_cons, List.count_nil]
  omega

section Depth

variable {d : Int32} {c : Char} {w : List Char}

@[simp] theorem not_terminates_nil (d : Int32) : ¬ Terminates d [] := not_endsBy_nil _

theorem Terminates.append (h : Terminates d w) (v : List Char) : Terminates d (w ++ v) :=
  EndsBy.append h v

/-- A character ends the statement, or moves its depth. -/
theorem terminates_cons : Terminates d (c :: w) ↔ (c = ';' ∧ d = 0) ∨ (c = '}' ∧ d - 1 < 0) ∨
    Terminates (d + .ofInt (braceDepth [c])) w := by
  have hempty : d + .ofInt (braceDepth []) = d := Int32.add_zero d
  have hclose : d + .ofInt (braceDepth ['}']) = d - 1 := (Int32.sub_eq_add_neg d 1).symm
  have hdepth : (fun p => (d + .ofInt (braceDepth (c :: p))).toInt) =
      fun p => (d + .ofInt (braceDepth [c]) + .ofInt (braceDepth p)).toInt := by
    funext p
    rw [braceDepth_cons, Int32.ofInt_add, ← Int32.add_assoc]
  rw [Terminates, endsBy_cons, Terminates, hempty, hdepth, ← Int32.toInt_zero, Int32.toInt_inj]
  refine or_congr_right (or_congr_left (and_congr_right ?_))
  rintro rfl
  rw [hclose, Int32.lt_iff_toInt_lt]

/-! Depths that do not leave their range are plain counts. -/

theorem toInt_add_one (h : d.toInt + 1 < 2147483648) : (d + 1).toInt = d.toInt + 1 := by
  have hlow := Int32.le_toInt d
  rw [Int32.toInt_add, Int32.toInt_one]
  exact Int.bmod_eq_of_le (by omega) (by omega)

theorem toInt_sub_one (h : 0 ≤ d.toInt) : (d - 1).toInt = d.toInt - 1 := by
  have hhigh := Int32.toInt_lt d
  rw [Int32.toInt_sub, Int32.toInt_one]
  exact Int.bmod_eq_of_le (by omega) (by omega)

theorem eq_zero_iff_toInt : d = 0 ↔ d.toInt = 0 := by rw [← Int32.toInt_inj, Int32.toInt_zero]

theorem sub_one_neg_iff (h : 0 ≤ d.toInt) : d - 1 < 0 ↔ d.toInt = 0 := by
  rw [Int32.lt_iff_toInt_lt, toInt_sub_one h, Int32.toInt_zero]
  omega

theorem toInt_add_braceDepth (hd : 0 ≤ d.toInt) (hw : d.toInt + [c].count '{' < 2147483648) :
    (d + .ofInt (braceDepth [c])).toInt = d.toInt + braceDepth [c] := by
  by_cases ho : c = '{'
  · subst ho
    exact toInt_add_one hw
  by_cases hc : c = '}'
  · subst hc
    rw [braceDepth_close, Int32.ofInt_neg, ← Int32.sub_eq_add_neg]
    exact toInt_sub_one hd
  · rw [braceDepth_other ho hc, Int.add_zero]
    exact congrArg Int32.toInt (Int32.add_zero d)

/-- A text with few braces ends a statement by the plain count of its depth. -/
theorem terminates_iff_endsBy (hd : 0 ≤ d.toInt) (hw : d.toInt + w.count '{' < 2147483648) :
    Terminates d w ↔ EndsBy (fun p => d.toInt + braceDepth p) w := by
  induction w generalizing d with
  | nil => simp [not_endsBy_nil]
  | cons c w ih =>
    rw [← List.singleton_append, List.count_append] at hw
    have hnext := toInt_add_braceDepth hd (c := c) (by omega)
    have hplain : (fun p => d.toInt + braceDepth (c :: p)) =
        fun p => (d + .ofInt (braceDepth [c])).toInt + braceDepth p := by
      funext p
      rw [hnext, braceDepth_cons, Int.add_assoc]
    rw [terminates_cons, endsBy_cons, hplain, eq_zero_iff_toInt, sub_one_neg_iff hd]
    by_cases hend : c = '}' ∧ d.toInt = 0
    · obtain ⟨rfl, hzero⟩ := hend
      simp [hzero]
    · have hmoved : braceDepth [c] ≤ [c].count '{' := by
        rw [braceDepth]
        omega
      have hlow : 0 ≤ d.toInt + braceDepth [c] := by
        by_cases hc : c = '}'
        · have hpos := not_and.1 hend hc
          rw [hc, braceDepth_close]
          omega
        · have hnone : [c].count '}' = 0 := by simp [hc]
          rw [braceDepth]
          omega
      have hopen : ¬ (c = '}' ∧ d.toInt + braceDepth [c] < 0) := by omega
      rw [ih (by omega) (by omega), iff_false_intro hend, iff_false_intro hopen, braceDepth_nil,
        Int.add_zero]

end Depth

theorem Cell.statementDepth_append (d : Int32) (xs ys : List Cell) :
    statementDepth d (xs ++ ys) = (statementDepth d xs).bind (statementDepth · ys) := by
  induction xs generalizing d with
  | nil => rfl
  | cons c xs ih =>
    simp only [List.cons_append, statementDepth, ih]
    split
    · rfl
    split
    · rfl
    split
    · split <;> rfl
    split <;> rfl

/-- The search stops exactly in a text that terminates the statement. -/
theorem Cell.statementDepth_eq_none (d : Int32) (cells : List Cell) :
    statementDepth d cells = none ↔ Terminates d (live cells) := by
  induction cells generalizing d with
  | nil => simp [statementDepth, live]
  | cons c cells ih =>
    cases hlive : c.isLive with
    | false => simpa [statementDepth, live, hlive] using ih d
    | true =>
      have hcons : live (c :: cells) = c.char :: live cells := by simp [live, hlive]
      rw [hcons, terminates_cons]
      by_cases ho : c.char = '{'
      · simpa [statementDepth, hlive, ho] using ih (d + 1)
      by_cases hc : c.char = '}'
      · have hless : d + -1 = d - 1 := (Int32.sub_eq_add_neg d 1).symm
        by_cases hneg : d - 1 < 0
        · simp [statementDepth, hlive, hc, hneg]
        · simpa [statementDepth, hlive, hc, hneg, hless] using ih (d - 1)
      have hsame : d + .ofInt (braceDepth [c.char]) = d := by
        rw [braceDepth_other ho hc]
        exact Int32.add_zero d
      by_cases hs : c.char = ';' ∧ d = 0
      · simp [statementDepth, hlive, hs.1, hs.2]
      · simpa [statementDepth, hlive, ho, hc, hs, hsame] using ih d

def CarriesUse (rows : List Row) (l : Nat) : Prop :=
  ∃ row front back, Row.at? rows l = some row ∧ Cell.UseAt row.cells front back

/-- An attribute line: it starts in code, begins with `#[`, and has no `use`. -/
def AttributeLine (rows : List Row) (l : Nat) : Prop :=
  ∃ row, Row.at? rows l = some row ∧ row.before.isInert = false ∧
    (∃ blanks rest, row.text = blanks ++ '#' :: '[' :: rest ∧ ∀ c ∈ blanks, isBlank c = true) ∧
    ¬ CarriesUse rows l

/-- The first `use` of line `u`, with the cells that follow it there. -/
def FirstUse (rows : List Row) (u : Nat) (back : List Cell) : Prop :=
  ∃ row front, Row.at? rows u = some row ∧ Cell.UseAt row.cells front back ∧
    ∀ front' back', Cell.UseAt row.cells front' back' → front.length ≤ front'.length

/-- The cells from a `use` of line `u` to the end of line `l`. -/
def stretch (rows : List Row) (u l : Nat) (back : List Cell) : List Cell :=
  back ++ ((rows.drop u).take (l - u)).flatMap (·.cells)

/-- A statement whose `use` stands on line `u`: it takes in the attribute lines above, and ends on
the first line that terminates it, or with the text. -/
structure Statement (rows : List Row) (s : Span) (u : Nat) : Prop where
  start : 1 ≤ s.first
  above : s.first ≤ u
  below : u ≤ s.last
  inside : s.last ≤ rows.length
  attributes : ∀ l, s.first ≤ l → l < u → AttributeLine rows l
  ends : ∃ back, FirstUse rows u back ∧
    (∀ l, u ≤ l → l < s.last → ¬ Terminates 0 (Cell.live (stretch rows u l back))) ∧
    (Terminates 0 (Cell.live (stretch rows u s.last back)) ∨ s.last = rows.length)

/-- All statements behind line `after`, each with as many attribute lines as there are. -/
inductive Statements (rows : List Row) : Nat → List Span → Prop where
  | nil {after : Nat} : (∀ l, after < l → ¬ CarriesUse rows l) → Statements rows after []
  | cons {after u : Nat} {s : Span} {rest : List Span} :
      after < s.first → Statement rows s u →
      (s.first = after + 1 ∨ ¬ AttributeLine rows (s.first - 1)) →
      (∀ l, after < l → l < s.first → ¬ CarriesUse rows l) →
      Statements rows s.last rest → Statements rows after (s :: rest)

section Search

variable {rows : List Row}

theorem stretch_succ {u l : Nat} {row : Row} (back : List Cell) (hu : u ≤ l)
    (hrow : Row.at? rows (l + 1) = some row) :
    stretch rows u (l + 1) back = stretch rows u l back ++ row.cells := by
  have hget : (rows.drop u)[l - u]? = some row := by
    rw [List.getElem?_drop, Nat.add_sub_cancel' hu]
    exact hrow
  rw [stretch, stretch, show l + 1 - u = l - u + 1 by omega, List.take_add_one, hget]
  simp

@[simp] theorem stretch_self (rows : List Row) (u : Nat) (back : List Cell) :
    stretch rows u u back = back := by simp [stretch]

theorem stretch_le {u l m : Nat} (back : List Cell) (hlm : l ≤ m) :
    ∃ more, stretch rows u m back = stretch rows u l back ++ more := by
  refine ⟨(((rows.drop u).take (m - u)).drop (l - u)).flatMap (·.cells), ?_⟩
  have h := List.take_append_drop (l - u) ((rows.drop u).take (m - u))
  rw [List.take_take, Nat.min_eq_left (by omega)] at h
  rw [stretch, stretch, List.append_assoc, ← List.flatMap_append, h]

theorem carriesUse_iff {l : Nat} {row : Row} (hrow : Row.at? rows l = some row) :
    CarriesUse rows l ↔ ∃ back, Cell.fromUse? none row.cells = some back := by
  constructor
  · intro hgiven
    obtain ⟨row', front, back, hrow', hsplit, huse⟩ := hgiven
    rw [hrow] at hrow'
    obtain rfl := Option.some.inj hrow'
    cases hfrom : Cell.fromUse? none row.cells with
    | some found => exact ⟨found, rfl⟩
    | none =>
      have := Cell.fromUse?_none hfrom hsplit
      rw [Cell.charBefore_none] at this
      exact absurd huse this
  · intro hgiven
    obtain ⟨back, hback⟩ := hgiven
    obtain ⟨front, hsplit, huse, -⟩ := Cell.fromUse?_spec hback
    rw [Cell.charBefore_none] at huse
    exact ⟨row, front, back, hrow, hsplit, huse⟩

theorem firstUse_of_fromUse? {u : Nat} {row : Row} {back : List Cell}
    (hrow : Row.at? rows u = some row) (h : Cell.fromUse? none row.cells = some back) :
    FirstUse rows u back := by
  obtain ⟨front, hsplit, huse, hfirst⟩ := Cell.fromUse?_spec h
  rw [Cell.charBefore_none] at huse
  refine ⟨row, front, hrow, ⟨hsplit, huse⟩, fun front' back' huse' => ?_⟩
  refine hfirst front' back' huse'.1 ?_
  rw [Cell.charBefore_none]
  exact huse'.2

theorem isAttribute_iff (row : Row) : row.isAttribute = true ↔ row.before.isInert = false ∧
    ∃ blanks rest, row.text = blanks ++ '#' :: '[' :: rest ∧ ∀ c ∈ blanks, isBlank c = true := by
  rw [Row.isAttribute, Bool.and_eq_true, Bool.not_eq_true', List.isPrefixOf_iff_prefix]
  refine and_congr_right fun _ => ⟨?_, ?_⟩
  · intro hgiven
    obtain ⟨rest, hrest⟩ := hgiven
    obtain ⟨blanks, hsplit, hblank⟩ := trimStart_spec row.text
    exact ⟨blanks, rest, by rw [hsplit, ← hrest]; simp, hblank⟩
  · intro hgiven
    obtain ⟨blanks, rest, hsplit, hblank⟩ := hgiven
    have hmark : trimStart ('#' :: '[' :: rest) = '#' :: '[' :: rest :=
      trimStart_eq_self_iff.2 (by simp [show isBlank '#' = false by decide])
    rw [hsplit, trimStart_append hblank, hmark]
    exact ⟨rest, rfl⟩

theorem attributeLine_iff {l : Nat} {row : Row} (hrow : Row.at? rows l = some row) :
    AttributeLine rows l ↔ row.isAttribute = true ∧ ¬ CarriesUse rows l := by
  rw [isAttribute_iff]
  constructor
  · intro hgiven
    obtain ⟨row', hrow', hbefore, htext, hno⟩ := hgiven
    rw [hrow] at hrow'
    obtain rfl := Option.some.inj hrow'
    exact ⟨⟨hbefore, htext⟩, hno⟩
  · intro hgiven
    obtain ⟨⟨hbefore, htext⟩, hno⟩ := hgiven
    exact ⟨row, hrow, hbefore, htext, hno⟩

theorem carriesUse_le {l : Nat} (h : CarriesUse rows l) : l ≤ rows.length := by
  obtain ⟨row, _, _, hrow, _⟩ := h
  cases l with
  | zero => omega
  | succ l => exact (List.getElem?_eq_some_iff.1 hrow).1

/-- The lines from `first` to `u` begin a statement behind line `after`: the lines above `u` are
attribute lines, as many as there are, and no `use` stands before them. -/
structure Begun (rows : List Row) (after first u : Nat) : Prop where
  behind : after < first
  above : first ≤ u
  attributes : ∀ l, first ≤ l → l < u → AttributeLine rows l
  maximal : first = after + 1 ∨ ¬ AttributeLine rows (first - 1)
  unused : ∀ l, after < l → l < first → ¬ CarriesUse rows l

/-- What the search knows before line `n`, the last statement having ended on line `after`. -/
def Searched (rows : List Row) (after n : Nat) : ImportSearch → Prop
  | .between attributes => attributes < n ∧ Begun rows after (n - attributes) n
  | .within first depth => ∃ u back, u < n ∧ Begun rows after first u ∧ FirstUse rows u back ∧
      Cell.statementDepth 0 (stretch rows u (n - 1) back) = some depth

theorem begun_next (n : Nat) : Begun rows n (n + 1) (n + 1) :=
  ⟨by omega, Nat.le_refl _, fun l h h' => by omega, .inl rfl, fun l h h' => by omega⟩

theorem not_terminates_of_depth {u l m : Nat} {d : Int32} {back : List Cell} (hlm : l ≤ m)
    (h : Cell.statementDepth 0 (stretch rows u m back) = some d) :
    ¬ Terminates 0 (Cell.live (stretch rows u l back)) := by
  intro hend
  obtain ⟨more, hmore⟩ : ∃ more, stretch rows u m back = stretch rows u l back ++ more :=
    stretch_le back hlm
  have hwhole := hend.append (Cell.live more)
  rw [← Cell.live_append, ← hmore, ← Cell.statementDepth_eq_none, h] at hwhole
  simp at hwhole

theorem Begun.statement {after first u n : Nat} {back : List Cell} (h : Begun rows after first u)
    (huse : FirstUse rows u back) (hun : u ≤ n) (hn : n ≤ rows.length)
    (hopen : ∀ l, u ≤ l → l < n → ¬ Terminates 0 (Cell.live (stretch rows u l back)))
    (hend : Terminates 0 (Cell.live (stretch rows u n back)) ∨ n = rows.length) :
    Statement rows ⟨first, n⟩ u where
  start := Nat.lt_of_le_of_lt (Nat.zero_le _) h.behind
  above := h.above
  below := hun
  inside := hn
  attributes := h.attributes
  ends := ⟨back, huse, hopen, hend⟩

theorem Begun.close {after first u n : Nat} {spans : List Span} (h : Begun rows after first u)
    (hs : Statement rows ⟨first, n⟩ u) (hrest : Statements rows n spans) :
    Statements rows after (⟨first, n⟩ :: spans) :=
  .cons h.behind hs h.maximal h.unused hrest

/-- One line keeps what the search knows, and gives a statement if one ends there. -/
theorem Searched.step {after n : Nat} {row : Row} {s : ImportSearch} (h : Searched rows after n s)
    (hrow : Row.at? rows n = some row) :
    (∃ first u, (s.step n row).2 = some ⟨first, n⟩ ∧ Begun rows after first u ∧
        Statement rows ⟨first, n⟩ u ∧ Searched rows n (n + 1) (s.step n row).1) ∨
      ((s.step n row).2 = none ∧ Searched rows after (n + 1) (s.step n row).1) := by
  have hn : n ≤ rows.length := by
    cases n with
    | zero => omega
    | succ n => exact (List.getElem?_eq_some_iff.1 hrow).1
  have hfresh : Searched rows n (n + 1) (.between 0) := ⟨by omega, begun_next n⟩
  cases s with
  | within first depth =>
    obtain ⟨u, back, hun, hbegun, huse, hdepth⟩ := h
    have hpos : n - 1 + 1 = n := by omega
    have hstretch : stretch rows u n back = stretch rows u (n - 1) back ++ row.cells := by
      rw [← hpos] at hrow
      have := stretch_succ back (u := u) (by omega) hrow
      rwa [hpos] at this
    have hnext : Cell.statementDepth 0 (stretch rows u n back) =
        Cell.statementDepth depth row.cells := by
      simp [hstretch, Cell.statementDepth_append, hdepth]
    cases hd : Cell.statementDepth depth row.cells with
    | none =>
      have hend : Terminates 0 (Cell.live (stretch rows u n back)) := by
        rw [← Cell.statementDepth_eq_none, hnext, hd]
      refine .inl ⟨first, u, by simp [ImportSearch.step, hd], hbegun, ?_, ?_⟩
      · exact hbegun.statement huse (by omega) hn
          (fun l _ hl => not_terminates_of_depth (by omega) hdepth) (.inl hend)
      · simpa [ImportSearch.step, hd] using hfresh
    | some d =>
      refine .inr ⟨by simp [ImportSearch.step, hd], ?_⟩
      simp only [ImportSearch.step, hd]
      exact ⟨u, back, by omega, hbegun, huse, by rw [Nat.add_sub_cancel, hnext, hd]⟩
  | between attributes =>
    obtain ⟨hlt, hbegun⟩ := h
    cases hfrom : Cell.fromUse? none row.cells with
    | some back =>
      have huse := firstUse_of_fromUse? hrow hfrom
      cases hd : Cell.statementDepth 0 back with
      | none =>
        have hend : Terminates 0 (Cell.live (stretch rows n n back)) := by
          rw [← Cell.statementDepth_eq_none, stretch_self, hd]
        refine .inl ⟨n - attributes, n, by simp [ImportSearch.step, hfrom, hd], hbegun, ?_, ?_⟩
        · exact hbegun.statement huse (Nat.le_refl n) hn (fun l _ _ => by omega) (.inl hend)
        · simpa [ImportSearch.step, hfrom, hd] using hfresh
      | some d =>
        refine .inr ⟨by simp [ImportSearch.step, hfrom, hd], ?_⟩
        simp only [ImportSearch.step, hfrom, hd]
        exact ⟨n, back, by omega, hbegun, huse, by simpa using hd⟩
    | none =>
      have hno : ¬ CarriesUse rows n := by simp [carriesUse_iff hrow, hfrom]
      have hattr := attributeLine_iff hrow
      refine .inr ⟨by simp [ImportSearch.step, hfrom], ?_⟩
      simp only [ImportSearch.step, hfrom, Searched]
      cases hmark : row.isAttribute with
      | true =>
        have hline : AttributeLine rows n := hattr.2 ⟨hmark, hno⟩
        simp only [if_true]
        rw [show n + 1 - (attributes + 1) = n - attributes by omega]
        refine ⟨by omega, hbegun.behind, by omega, fun l hl hl' => ?_, hbegun.maximal, hbegun.unused⟩
        by_cases he : l = n
        · subst he; exact hline
        · exact hbegun.attributes l hl (by omega)
      | false =>
        have hline : ¬ AttributeLine rows n := by simp [hattr, hmark]
        refine ⟨by simp, ?_⟩
        simp only [Bool.false_eq_true, if_false, Nat.sub_zero]
        have hbehind := hbegun.behind
        refine ⟨by omega, Nat.le_refl _, fun l hl hl' => by omega, .inr hline, fun l hl hl' => ?_⟩
        by_cases he : l = n
        · subst he; exact hno
        · by_cases hl₂ : l < n - attributes
          · exact hbegun.unused l hl hl₂
          · obtain ⟨_, _, _, _, hno'⟩ := hbegun.attributes l (by omega) (by omega)
            exact hno'

theorem Searched.spans (done : List Row) {rest : List Row} {after : Nat} {s : ImportSearch}
    (hrows : rows = done ++ rest) (h : Searched rows after (done.length + 1) s) :
    Statements rows after (s.spans (done.length + 1) rest) := by
  induction rest generalizing done after s with
  | nil =>
    have hlen : rows.length = done.length := by simp [hrows]
    have hlast : Statements rows done.length [] :=
      .nil fun l hl huse => by have := carriesUse_le huse; omega
    cases s with
    | between attributes =>
      obtain ⟨hlt, hbegun⟩ := h
      refine .nil fun l hl huse => ?_
      have := carriesUse_le huse
      by_cases hl₂ : l < done.length + 1 - attributes
      · exact hbegun.unused l hl hl₂ huse
      · obtain ⟨_, _, _, _, hno⟩ := hbegun.attributes l (by omega) (by omega)
        exact hno huse
    | within first depth =>
      obtain ⟨u, back, hun, hbegun, huse, hdepth⟩ := h
      simp only [Nat.add_sub_cancel] at hdepth
      simp only [ImportSearch.spans, Nat.add_sub_cancel]
      refine hbegun.close ?_ hlast
      exact hbegun.statement huse (by omega) (by omega)
        (fun l _ hl => not_terminates_of_depth (by omega) hdepth) (.inr hlen.symm)
  | cons row rest ih =>
    have hrow : Row.at? rows (done.length + 1) = some row := by simp [Row.at?, hrows]
    have hlen : (done ++ [row]).length = done.length + 1 := by simp
    have hsplit : rows = (done ++ [row]) ++ rest := by simp [hrows]
    simp only [ImportSearch.spans]
    rcases h.step hrow with ⟨first, u, hspan, hbegun, hst, hnext⟩ | ⟨hspan, hnext⟩
    · rw [← hlen] at hnext hst
      have := ih _ hsplit hnext
      simp only [hspan, Option.toList_some, List.singleton_append]
      rw [hlen] at this hst
      exact hbegun.close hst this
    · rw [← hlen] at hnext
      have := ih _ hsplit hnext
      rw [hlen] at this
      simpa [hspan] using this

theorem importSpans_statements (rows : List Row) : Statements rows 0 (importSpans rows) :=
  Searched.spans [] rfl ⟨by simp, begun_next 0⟩

theorem Statements.carried {after l : Nat} {spans : List Span} (h : Statements rows after spans)
    (hl : after < l) (huse : CarriesUse rows l) : ∃ s ∈ spans, s.first ≤ l ∧ l ≤ s.last := by
  induction h with
  | nil hno => exact absurd huse (hno l hl)
  | @cons after u s rest _ _ _ hno _ ih =>
    by_cases hlast : l ≤ s.last
    · by_cases hfirst : s.first ≤ l
      · exact ⟨s, by simp, hfirst, hlast⟩
      · exact absurd huse (hno l hl (by omega))
    · obtain ⟨t, ht, hin⟩ := ih (by omega)
      exact ⟨t, List.mem_cons_of_mem s ht, hin⟩

/-- Each span is a statement, and lies behind the span before it or behind line `after`. -/
theorem Statements.get {after i : Nat} {s : Span} {spans : List Span}
    (h : Statements rows after spans) (hs : spans[i]? = some s) :
    (∃ u, Statement rows s u) ∧ ∃ p, (i = 0 ∧ p = after ∨
        ∃ j t, i = j + 1 ∧ spans[j]? = some t ∧ p = t.last) ∧
      p < s.first ∧ (s.first = p + 1 ∨ ¬ AttributeLine rows (s.first - 1)) := by
  induction h generalizing i with
  | nil => simp at hs
  | @cons after u head rest hbehind hst hmax _ _ ih =>
    cases i with
    | zero =>
      obtain rfl := Option.some.inj hs
      exact ⟨⟨u, hst⟩, after, .inl ⟨rfl, rfl⟩, hbehind, hmax⟩
    | succ i =>
      obtain ⟨hstatement, p, hp, hrest⟩ := ih (i := i) hs
      refine ⟨hstatement, p, .inr ?_, hrest⟩
      rcases hp with ⟨rfl, rfl⟩ | ⟨j, t, rfl, ht, rfl⟩
      · exact ⟨0, head, rfl, rfl, rfl⟩
      · exact ⟨j + 1, t, rfl, ht, rfl⟩

theorem ownsLine_iff (spans : List Span) (l : Nat) :
    ownsLine spans l = true ↔ ∃ s ∈ spans, s.first ≤ l ∧ l ≤ s.last := by
  simp [ownsLine, Span.contains]

theorem ownsLine_eq_false (spans : List Span) (l : Nat) :
    ownsLine spans l = false ↔ ∀ s ∈ spans, s.contains l = false := by
  simp [ownsLine]

theorem Statements.pairwise {after : Nat} {spans : List Span} (h : Statements rows after spans) :
    spans.Pairwise (fun s t => s.last < t.first) ∧ ∀ s ∈ spans, after < s.first := by
  induction h with
  | nil => simp
  | @cons after u s rest hbehind hst _ _ _ ih =>
    have hle : s.first ≤ s.last := Nat.le_trans hst.above hst.below
    refine ⟨List.pairwise_cons.2 ⟨ih.2, ih.1⟩, fun t ht => ?_⟩
    rcases List.mem_cons.1 ht with rfl | ht
    · exact hbehind
    · have := ih.2 t ht
      omega

theorem importSpans_pairwise (rows : List Row) :
    (importSpans rows).Pairwise fun s t => s.last < t.first :=
  (importSpans_statements rows).pairwise.1

theorem statement_of_mem {s : Span} (h : s ∈ importSpans rows) : ∃ u, Statement rows s u := by
  obtain ⟨i, hi⟩ := List.mem_iff_getElem?.1 h
  exact ((importSpans_statements rows).get hi).1

theorem importSpans_within {s : Span} (h : s ∈ importSpans rows) :
    1 ≤ s.first ∧ s.first ≤ s.last ∧ s.last ≤ rows.length := by
  obtain ⟨u, hst⟩ := statement_of_mem h
  exact ⟨hst.start, Nat.le_trans hst.above hst.below, hst.inside⟩

/-- The table of the imports marks the lines of their spans; a line that it does not have is none of
them. -/
theorem lineTable_importSpans (rows : List Row) :
    ∃ table, Checked.lineTable rows.length (importSpans rows) = .ok table ∧
      ∀ l, table[l]?.getD false = ownsLine (importSpans rows) l :=
  Checked.exists_lineTable fun _ hs => (importSpans_within hs).2.2

theorem ownsLine_length (rows : List Row) : ownsLine (importSpans rows) rows.length = true ↔
    ∃ s ∈ importSpans rows, s.last = rows.length := by
  rw [ownsLine_iff]
  refine exists_congr fun s => and_congr_right fun hs => ?_
  have := importSpans_within hs
  omega

end Search

/-- The spans of the imports are the statements of the text, in order and apart from each other.
Each takes in the attribute lines right above its `use`, and no `use` is left out. The table of their
lines can be set, and marks the lines in some span and no others. The depth that ends a statement is a
word of 32 bits, in a text with fewer opening braces than that the plain count. -/
theorem importSpans_exact (lines : List (List Char)) :
    let rows := Row.ofLines .neutral lines
    let spans := importSpans rows
    (∀ i s, spans[i]? = some s → ∃ u, Statement rows s u ∧
      (s.first = 1 ∨ ¬ AttributeLine rows (s.first - 1) ∨
        ∃ j t, i = j + 1 ∧ spans[j]? = some t ∧ t.first ≤ s.first - 1 ∧ s.first - 1 ≤ t.last)) ∧
    (∀ i s t, spans[i]? = some s → spans[i + 1]? = some t → s.last < t.first) ∧
    (∀ l, CarriesUse rows l → ∃ s ∈ spans, s.first ≤ l ∧ l ≤ s.last) ∧
    (∃ table, Checked.lineTable rows.length spans = .ok table ∧
      ∀ l, table[l]?.getD false = true ↔ ∃ s ∈ spans, s.first ≤ l ∧ l ≤ s.last) ∧
    ∀ w : List Char, w.count '{' < 2147483648 → (Terminates 0 w ↔ EndsBy braceDepth w) := by
  intro rows spans
  have hall : Statements rows 0 spans := importSpans_statements rows
  refine ⟨fun i s hs => ?_, fun i s t hs ht => ?_, fun l huse => ?_, ?_, fun w hw => ?_⟩
  · obtain ⟨⟨u, hst⟩, p, hp, hbehind, hmax⟩ := hall.get hs
    refine ⟨u, hst, ?_⟩
    rcases hmax with hmax | hmax
    · rcases hp with ⟨-, rfl⟩ | ⟨j, t, rfl, ht, rfl⟩
      · exact .inl hmax
      · obtain ⟨⟨v, hprev⟩, -⟩ := hall.get ht
        have := hprev.above
        have := hprev.below
        exact .inr (.inr ⟨j, t, rfl, ht, by omega, by omega⟩)
    · exact .inr (.inl hmax)
  · obtain ⟨-, p, hp, hbehind, -⟩ := hall.get ht
    rcases hp with ⟨h, -⟩ | ⟨j, t', h, ht', rfl⟩
    · omega
    · obtain rfl : i = j := by omega
      rw [hs] at ht'
      obtain rfl := Option.some.inj ht'
      exact hbehind
  · have hpos : 0 < l := by
      obtain ⟨row, _, _, hrow, _⟩ := huse
      cases l with
      | zero => simp [Row.at?] at hrow
      | succ l => omega
    exact hall.carried hpos huse
  · obtain ⟨table, htable, hmarks⟩ := lineTable_importSpans rows
    exact ⟨table, htable, fun l => by rw [hmarks, ownsLine_iff]⟩
  · have hzero := terminates_iff_endsBy (d := 0) (w := w) (by decide) (by simpa using hw)
    simpa using hzero

/-- An import of three lines, its attribute included. -/
theorem importSpans_exact_of_group :
    let rows := Row.ofLines .neutral ["#[a]".toList, "use b::\x7b".toList, "c\x7d;".toList]
    (importSpans rows)[0]? = some ⟨1, 3⟩ ∧ (∃ u, Statement rows ⟨1, 3⟩ u) ∧ CarriesUse rows 2 ∧
      ∃ table, Checked.lineTable 3 (importSpans rows) = .ok table ∧
        ∀ l, table[l]?.getD false = true ↔ 1 ≤ l ∧ l ≤ 3 := by
  intro rows
  have hspans : importSpans rows = [⟨1, 3⟩] := by decide
  obtain ⟨hstatements, -, -, ⟨table, htable, hmarks⟩, -⟩ :=
    importSpans_exact ["#[a]".toList, "use b::\x7b".toList, "c\x7d;".toList]
  obtain ⟨u, hstatement, -⟩ := hstatements 0 ⟨1, 3⟩ (by rw [hspans]; rfl)
  refine ⟨by rw [hspans]; rfl, ⟨u, hstatement⟩, ?_, table, htable, fun l => ?_⟩
  · have hentered : Row.at? rows 2 = some rows[1] := rfl
    exact (carriesUse_iff hentered).2 ⟨_, rfl⟩
  · have hmark := hmarks l
    rw [hspans] at hmark
    simpa using hmark

end CodeFolding
