import CodeFolding.Proofs.Statements

/-!
Import statements over the live characters of a text.

Regardless of lines, a statement begins at a `use` that stands alone outside of a statement and runs
to its terminator or to the end of the text. The search goes line by line and passes over what
follows a terminator on its line. So it finds these statements exactly as long as none of them
begins on the line on which the one before it ends.
-/

set_option autoImplicit false

namespace CodeFolding

/-- A live character with its line; `begins` says that a `use` that stands alone begins with it. -/
structure Letter where
  line : Nat
  char : Char
  begins : Bool
  deriving DecidableEq, Repr

def Cell.letters (n : Nat) (before : Option Char) : List Cell → List Letter
  | [] => []
  | c :: rest =>
    if c.isLive then ⟨n, c.char, startsUse before (c :: rest)⟩ :: letters n (some c.char) rest
    else letters n (some c.char) rest

/-- The live characters of the lines from `n` on. -/
def lettersFrom (n : Nat) : List Row → List Letter
  | [] => []
  | row :: rest => Cell.letters n none row.cells ++ lettersFrom (n + 1) rest

def letterText (w : List Letter) : List Char := w.map (·.char)

/-- The lines of the import statements of a stream; one without a terminator ends on line `last`. -/
inductive UseStatements (last : Nat) : List Letter → List Span → Prop where
  | absent {w : List Letter} : (∀ x ∈ w, x.begins = false) → UseStatements last w []
  | ended {gap body rest : List Letter} {u stop : Letter} {spans : List Span} :
      (∀ x ∈ gap, x.begins = false) → u.begins = true →
      ¬ Terminates 0 (letterText body) → Terminates 0 (letterText (body ++ [stop])) →
      UseStatements last rest spans →
      UseStatements last (gap ++ u :: (body ++ stop :: rest)) (⟨u.line, stop.line⟩ :: spans)
  | unended {gap body : List Letter} {u : Letter} :
      (∀ x ∈ gap, x.begins = false) → u.begins = true →
      ¬ Terminates 0 (letterText body) →
      UseStatements last (gap ++ u :: body) [⟨u.line, last⟩]

/-- The depth of a statement after live text; none if it ends there. -/
def textDepth (d : Int32) (w : List Char) : Option Int32 :=
  Cell.statementDepth d (w.map fun c => ⟨0, c, .code⟩)

/-- The statements of a stream; an open one is given by its first line and its depth. -/
def useStatements (last : Nat) : Option (Nat × Int32) → List Letter → List Span
  | none, [] => []
  | some (first, _), [] => [⟨first, last⟩]
  | none, x :: w =>
    if x.begins then useStatements last (some (x.line, 0)) w else useStatements last none w
  | some (first, depth), x :: w =>
    match textDepth depth [x.char] with
    | some d => useStatements last (some (first, d)) w
    | none => ⟨first, x.line⟩ :: useStatements last none w

theorem textDepth_append (d : Int32) (u v : List Char) :
    textDepth d (u ++ v) = (textDepth d u).bind (textDepth · v) := by
  simp [textDepth, Cell.statementDepth_append]

theorem textDepth_eq_none (d : Int32) (w : List Char) : textDepth d w = none ↔ Terminates d w := by
  have hlive : Cell.live (w.map fun c => ⟨0, c, .code⟩) = w := by
    induction w with
    | nil => rfl
    | cons c w ih => simpa [Cell.live, Cell.isLive] using ih
  rw [textDepth, Cell.statementDepth_eq_none, hlive]

theorem statementDepth_eq_textDepth (d : Int32) (cells : List Cell) :
    Cell.statementDepth d cells = textDepth d (Cell.live cells) := by
  induction cells generalizing d with
  | nil => rfl
  | cons c cells ih =>
    cases hlive : c.isLive with
    | false =>
      have hcons : Cell.live (c :: cells) = Cell.live cells := by simp [Cell.live, hlive]
      rw [hcons, ← ih]
      simp [Cell.statementDepth, hlive]
    | true =>
      have hcons : Cell.live (c :: cells) = [c.char] ++ Cell.live cells := by
        simp [Cell.live, hlive]
      have hcode : (⟨0, c.char, .code⟩ : Cell).isLive = true := rfl
      have hone : Cell.statementDepth d [c] = textDepth d [c.char] := by
        simp [textDepth, Cell.statementDepth, hlive, hcode]
      rw [hcons, textDepth_append, ← hone, ← List.singleton_append, Cell.statementDepth_append]
      simp [ih]

section Stream

variable {last first : Nat} {d e : Int32} {v w gap rest : List Letter} {stop : Letter}

theorem useStatements_gap (h : ∀ x ∈ gap, x.begins = false) :
    useStatements last none (gap ++ w) = useStatements last none w := by
  induction gap with
  | nil => rfl
  | cons x gap ih =>
    simp [useStatements, h x (by simp), ih fun y hy => h y (by simp [hy])]

theorem textDepth_cons {c : Char} {t : List Char} (h : textDepth d (c :: t) = some e) :
    ∃ d', textDepth d [c] = some d' ∧ textDepth d' t = some e := by
  rw [← List.singleton_append, textDepth_append] at h
  exact Option.bind_eq_some_iff.1 h

theorem useStatements_open (h : textDepth d (letterText v) = some e) :
    useStatements last (some (first, d)) (v ++ w) = useStatements last (some (first, e)) w := by
  induction v generalizing d with
  | nil =>
    obtain rfl : d = e := by simpa [letterText, textDepth, Cell.statementDepth] using h
    rfl
  | cons x v ih =>
    obtain ⟨d', hx, hv⟩ := textDepth_cons h
    simp only [List.cons_append, useStatements, hx]
    exact ih hv

theorem useStatements_stop (hopen : textDepth d (letterText v) = some e)
    (hstop : textDepth e [stop.char] = none) :
    useStatements last (some (first, d)) (v ++ stop :: w) =
      ⟨first, stop.line⟩ :: useStatements last none w := by
  rw [useStatements_open hopen]
  simp [useStatements, hstop]

theorem exists_stop (h : textDepth d (letterText w) = none) :
    ∃ body stop rest e, w = body ++ stop :: rest ∧ textDepth d (letterText body) = some e ∧
      textDepth e [stop.char] = none := by
  induction w generalizing d with
  | nil => simp [letterText, textDepth, Cell.statementDepth] at h
  | cons x w ih =>
    have hsplit : letterText (x :: w) = [x.char] ++ letterText w := rfl
    cases hx : textDepth d [x.char] with
    | none => exact ⟨[], x, w, d, rfl, rfl, hx⟩
    | some d' =>
      rw [hsplit, textDepth_append, hx, Option.bind_some] at h
      obtain ⟨body, stop, rest, e, rfl, hbody, hstop⟩ := ih h
      refine ⟨x :: body, stop, rest, e, rfl, ?_, hstop⟩
      have hcons : letterText (x :: body) = [x.char] ++ letterText body := rfl
      rw [hcons, textDepth_append, hx, Option.bind_some, hbody]

theorem exists_begin (w : List Letter) : (∀ x ∈ w, x.begins = false) ∨
    ∃ gap u v, w = gap ++ u :: v ∧ (∀ x ∈ gap, x.begins = false) ∧ u.begins = true := by
  induction w with
  | nil => exact .inl (by simp)
  | cons x w ih =>
    cases hx : x.begins with
    | true => exact .inr ⟨[], x, w, rfl, by simp, hx⟩
    | false =>
      rcases ih with hnone | ⟨gap, u, v, rfl, hgap, hu⟩
      · exact .inl (by simpa [hx] using hnone)
      · exact .inr ⟨x :: gap, u, v, rfl, by simpa [hx] using hgap, hu⟩

theorem useStatements_begin {u : Letter} (hgap : ∀ x ∈ gap, x.begins = false)
    (hu : u.begins = true) :
    useStatements last none (gap ++ u :: w) = useStatements last (some (u.line, 0)) w := by
  rw [useStatements_gap hgap]
  simp [useStatements, hu]

theorem terminates_stop : ¬ Terminates 0 (letterText v) ∧ Terminates 0 (letterText (v ++ [stop])) ↔
    ∃ e, textDepth 0 (letterText v) = some e ∧ textDepth e [stop.char] = none := by
  have hsplit : letterText (v ++ [stop]) = letterText v ++ [stop.char] := by simp [letterText]
  rw [← textDepth_eq_none, ← textDepth_eq_none, hsplit, textDepth_append]
  cases textDepth 0 (letterText v) <;> simp

theorem UseStatements.eq {spans : List Span} (h : UseStatements last w spans) :
    spans = useStatements last none w := by
  induction h with
  | @absent w hgap =>
    have hskip : useStatements last none (w ++ []) = useStatements last none [] :=
      useStatements_gap hgap
    rw [List.append_nil] at hskip
    rw [hskip, useStatements]
  | ended hgap hu hopen hstop _ ih =>
    obtain ⟨e, hbody, he⟩ := terminates_stop.1 ⟨hopen, hstop⟩
    rw [useStatements_begin hgap hu, useStatements_stop hbody he, ih]
  | @unended gap body u hgap hu hopen =>
    rw [← textDepth_eq_none, ← ne_eq, Option.ne_none_iff_exists'] at hopen
    obtain ⟨e, hbody⟩ := hopen
    have hrest : useStatements last (some (u.line, 0)) (body ++ []) =
        useStatements last (some (u.line, e)) [] := useStatements_open hbody
    rw [List.append_nil] at hrest
    rw [useStatements_begin hgap hu, hrest, useStatements]

theorem useStatements_spec (last n : Nat) {w : List Letter} (hn : w.length ≤ n) :
    UseStatements last w (useStatements last none w) := by
  -- on the length, since the rest behind a terminator is no direct tail of the stream
  induction n generalizing w with
  | zero =>
    obtain rfl := List.length_eq_zero_iff.1 (Nat.le_zero.1 hn)
    exact .absent (by simp)
  | succ n ih =>
    rcases exists_begin w with hnone | ⟨gap, u, v, rfl, hgap, hu⟩
    · have hw : UseStatements last w [] := .absent hnone
      rwa [hw.eq] at hw
    · rw [useStatements_begin hgap hu]
      cases hv : textDepth 0 (letterText v) with
      | none =>
        obtain ⟨body, stop, rest, e, rfl, hbody, he⟩ := exists_stop hv
        obtain ⟨hopen, hstop⟩ := terminates_stop.2 ⟨e, hbody, he⟩
        rw [useStatements_stop hbody he]
        simp only [List.length_append, List.length_cons] at hn
        exact .ended hgap hu hopen hstop (ih (by omega))
      | some e =>
        have hopen : ¬ Terminates 0 (letterText v) := by simp [← textDepth_eq_none, hv]
        have hw : UseStatements last (gap ++ u :: v) [⟨u.line, last⟩] := .unended hgap hu hopen
        rwa [hw.eq, useStatements_begin hgap hu] at hw

theorem useStatements_iff {spans : List Span} :
    UseStatements last w spans ↔ spans = useStatements last none w := by
  refine ⟨UseStatements.eq, ?_⟩
  rintro rfl
  exact useStatements_spec last w.length (Nat.le_refl _)

theorem first_mem_useStatements {s : Span} (h : s ∈ useStatements last none w) :
    ∃ x ∈ w, x.begins = true ∧ s.first = x.line := by
  have hw := useStatements_spec last w.length (Nat.le_refl _)
  generalize useStatements last none w = spans at h hw
  induction hw with
  | absent => simp at h
  | @ended gap body rest u stop spans _ hu _ _ _ ih =>
    rcases List.mem_cons.1 h with rfl | h
    · exact ⟨u, by simp, hu, rfl⟩
    · obtain ⟨x, hx, hbegin, hline⟩ := ih h
      exact ⟨x, by simp [hx], hbegin, hline⟩
  | @unended gap body u _ hu _ =>
    obtain rfl := List.mem_singleton.1 h
    exact ⟨u, by simp, hu, rfl⟩

theorem useStatements_head (last first : Nat) (d : Int32) (w : List Letter) :
    ∃ s rest, useStatements last (some (first, d)) w = s :: rest ∧ s.first = first := by
  induction w generalizing d with
  | nil => exact ⟨_, _, rfl, rfl⟩
  | cons x w ih =>
    cases hx : textDepth d [x.char] with
    | none => exact ⟨⟨first, x.line⟩, useStatements last none w, by simp [useStatements, hx], rfl⟩
    | some d' =>
      obtain ⟨s, rest, hs, hfirst⟩ := ih d'
      exact ⟨s, rest, by simpa [useStatements, hx] using hs, hfirst⟩

/-- What follows a statement on its last line `n` either begins another one or does not count. -/
theorem useStatements_remnant {n : Nat} (hline : ∀ x ∈ v, x.line = n) :
    (∀ last w, ∃ s rest, useStatements last none (v ++ w) = s :: rest ∧ s.first = n) ∨
      ∀ last w, useStatements last none (v ++ w) = useStatements last none w := by
  rcases exists_begin v with hnone | ⟨gap, u, v', rfl, hgap, hu⟩
  · exact .inr fun last w => useStatements_gap hnone
  · refine .inl fun last w => ?_
    obtain ⟨s, rest, hs, hfirst⟩ := useStatements_head last u.line 0 (v' ++ w)
    refine ⟨s, rest, ?_, by rw [hfirst, hline u (by simp)]⟩
    rw [List.append_assoc, List.cons_append, useStatements_begin hgap hu, hs]

end Stream

section Lines

variable {n : Nat} {before : Option Char} {cells back : List Cell}

theorem letterText_letters (n : Nat) (before : Option Char) (cells : List Cell) :
    letterText (Cell.letters n before cells) = Cell.live cells := by
  induction cells generalizing before with
  | nil => rfl
  | cons c cells ih => cases hc : c.isLive <;> simp_all [Cell.letters, letterText, Cell.live]

theorem line_of_mem_letters {x : Letter} (h : x ∈ Cell.letters n before cells) : x.line = n := by
  induction cells generalizing before with
  | nil => simp [Cell.letters] at h
  | cons c cells ih =>
    rw [Cell.letters] at h
    split at h
    · rcases List.mem_cons.1 h with rfl | h
      · rfl
      · exact ih h
    · exact ih h

theorem le_line_of_mem_lettersFrom {rows : List Row} {x : Letter} (h : x ∈ lettersFrom n rows) :
    n ≤ x.line := by
  induction rows generalizing n with
  | nil => simp [lettersFrom] at h
  | cons row rest ih =>
    rcases List.mem_append.1 h with h | h
    · exact (line_of_mem_letters h).ge
    · have := ih h
      omega

theorem begins_of_fromUse?_none (h : Cell.fromUse? before cells = none) :
    ∀ x ∈ Cell.letters n before cells, x.begins = false := by
  induction cells generalizing before with
  | nil => simp [Cell.letters]
  | cons c cells ih =>
    by_cases hc : Cell.startsUse before (c :: cells) = true
    · simp [Cell.fromUse?, hc] at h
    · have hrest := ih (by simpa [Cell.fromUse?, hc] using h)
      rw [Cell.letters]
      split
      · simpa [hc] using hrest
      · exact hrest

theorem Cell.BeginsUse.head {c : Cell} (h : BeginsUse before (c :: cells)) :
    c.isLive = true ∧ c.char = 'u' := by
  obtain ⟨u, s, e, rest, hcells, hu, -, -, hlive, -⟩ := h
  obtain rfl := (List.cons.inj hcells).1
  exact ⟨hlive, hu⟩

theorem letters_of_fromUse? (h : Cell.fromUse? before cells = some back) :
    ∃ gap u v, Cell.letters n before cells = gap ++ u :: v ∧ (∀ x ∈ gap, x.begins = false) ∧
      u.begins = true ∧ textDepth 0 (letterText v) = Cell.statementDepth 0 back := by
  induction cells generalizing before with
  | nil => simp [Cell.fromUse?] at h
  | cons c cells ih =>
    by_cases hc : Cell.startsUse before (c :: cells) = true
    · obtain rfl : c :: cells = back := by simpa [Cell.fromUse?, hc] using h
      obtain ⟨hlive, hu⟩ := ((Cell.startsUse_iff _ _).1 hc).head
      refine ⟨[], ⟨n, c.char, true⟩, Cell.letters n (some c.char) cells, ?_, by simp, rfl, ?_⟩
      · simp [Cell.letters, hlive, hc]
      · rw [letterText_letters, ← statementDepth_eq_textDepth]
        simp [Cell.statementDepth, hlive, hu]
    · obtain ⟨gap, u, v, hsplit, hgap, hu, hdepth⟩ :=
        ih (by simpa [Cell.fromUse?, hc] using h)
      rw [Cell.letters]
      split
      · exact ⟨⟨n, c.char, _⟩ :: gap, u, v, by rw [hsplit]; rfl, by simpa [hc] using hgap, hu, hdepth⟩
      · exact ⟨gap, u, v, hsplit, hgap, hu, hdepth⟩

end Lines

/-- The search by lines and the stream of letters are at the same point: no statement is open, or
the same one is. -/
def InStep : ImportSearch → Option (Nat × Int32) → Prop
  | .between _, none => True
  | .within first depth, some (line, d) => first ≤ line ∧ depth = d
  | _, _ => False

/-- A span reaches from a statement's first line, or from above it, to the statement's last. -/
def Covers (span s : Span) : Prop := span.first ≤ s.first ∧ span.last = s.last

/-- The letters of line `n` leave the open statement open, or end it and leave some of the line. -/
theorem useStatements_line (line : Nat) (d : Int32) {n : Nat} {v : List Letter}
    (hline : ∀ x ∈ v, x.line = n) :
    (∃ e, textDepth d (letterText v) = some e ∧ ∀ last w,
      useStatements last (some (line, d)) (v ++ w) = useStatements last (some (line, e)) w) ∨
    (textDepth d (letterText v) = none ∧ ∃ left : List Letter, (∀ x ∈ left, x.line = n) ∧
      ∀ last w, useStatements last (some (line, d)) (v ++ w) =
        ⟨line, n⟩ :: useStatements last none (left ++ w)) := by
  cases hv : textDepth d (letterText v) with
  | some e => exact .inl ⟨e, rfl, fun last w => useStatements_open hv⟩
  | none =>
    obtain ⟨body, stop, left, e, rfl, hbody, he⟩ := exists_stop hv
    refine .inr ⟨rfl, left, fun x hx => hline x (by simp [hx]), fun last w => ?_⟩
    rw [List.append_assoc, List.cons_append, useStatements_stop hbody he, hline stop (by simp)]

/-- One line keeps the two in step, or ends a statement in both. -/
theorem InStep.step {s : ImportSearch} {t : Option (Nat × Int32)} (h : InStep s t) (n : Nat)
    (row : Row) :
    ((s.step n row).2 = none ∧ ∃ t', InStep (s.step n row).1 t' ∧ ∀ last w,
      useStatements last t (Cell.letters n none row.cells ++ w) = useStatements last t' w) ∨
    ∃ span stmt left, (s.step n row).2 = some span ∧ InStep (s.step n row).1 none ∧
      Covers span stmt ∧ stmt.last = n ∧ (∀ x ∈ left, x.line = n) ∧ ∀ last w,
      useStatements last t (Cell.letters n none row.cells ++ w) =
        stmt :: useStatements last none (left ++ w) := by
  have hlines : ∀ x ∈ Cell.letters n none row.cells, x.line = n := fun x => line_of_mem_letters
  cases s with
  | within first depth =>
    cases t with
    | none => exact h.elim
    | some open' =>
      obtain ⟨line, d⟩ := open'
      obtain ⟨hfirst, rfl⟩ := h
      have hdepth : Cell.statementDepth depth row.cells =
          textDepth depth (letterText (Cell.letters n none row.cells)) := by
        rw [letterText_letters, statementDepth_eq_textDepth]
      rcases useStatements_line line depth hlines with
        ⟨e, he, hopen⟩ | ⟨hnone, left, hleft, hend⟩
      · refine .inl ⟨by simp [ImportSearch.step, hdepth, he], some (line, e), ?_, hopen⟩
        simpa [ImportSearch.step, hdepth, he, InStep] using hfirst
      · exact .inr ⟨⟨first, n⟩, ⟨line, n⟩, left, by simp [ImportSearch.step, hdepth, hnone],
          by simp [ImportSearch.step, hdepth, hnone, InStep], ⟨hfirst, rfl⟩, rfl, hleft, hend⟩
  | between attributes =>
    cases t with
    | some open' => exact h.elim
    | none =>
      cases hfrom : Cell.fromUse? none row.cells with
      | none =>
        refine .inl ⟨by simp [ImportSearch.step, hfrom], none, ?_, fun last w => ?_⟩
        · simp [ImportSearch.step, hfrom, InStep]
        · exact useStatements_gap (begins_of_fromUse?_none hfrom)
      | some back =>
        obtain ⟨gap, u, v, hsplit, hgap, hu, hdepth⟩ := letters_of_fromUse? (n := n) hfrom
        rw [hsplit] at hlines ⊢
        have huline : u.line = n := hlines u (by simp)
        have hbegin : ∀ last w, useStatements last none (gap ++ u :: v ++ w) =
            useStatements last (some (n, 0)) (v ++ w) := fun last w => by
          rw [List.append_assoc, List.cons_append, useStatements_begin hgap hu, huline]
        have hv : ∀ x ∈ v, x.line = n := fun x hx => hlines x (by simp [hx])
        rcases useStatements_line n 0 hv with
          ⟨e, he, hopen⟩ | ⟨hnone, left, hleft, hend⟩
        · rw [hdepth] at he
          refine .inl ⟨by simp [ImportSearch.step, hfrom, he], some (n, e), ?_, fun last w => ?_⟩
          · simp [ImportSearch.step, hfrom, he, InStep]
          · rw [hbegin, hopen]
        · rw [hdepth] at hnone
          refine .inr ⟨⟨n - attributes, n⟩, ⟨n, n⟩, left, by simp [ImportSearch.step, hfrom, hnone],
            by simp [ImportSearch.step, hfrom, hnone, InStep], ⟨Nat.sub_le _ _, rfl⟩, rfl, hleft,
            fun last w => ?_⟩
          rw [hbegin, hend]

/-- Statements that lie on lines of their own. -/
def Apart (spans : List Span) : Prop := spans.Pairwise fun s t => s.last < t.first

theorem Row.ofLines_take (s : Carry) (lines : List (List Char)) (m : Nat) :
    ofLines s (lines.take m) = (ofLines s lines).take m := by
  induction lines generalizing s m with
  | nil => simp [ofLines]
  | cons line rest ih =>
    cases m with
    | zero => rfl
    | succ m => simp [ofLines, ih]

section Search

variable {rows : List Row} {n : Nat} {s : ImportSearch} {t : Option (Nat × Int32)}

theorem InStep.between (h : InStep s none) : ∃ attributes, s = .between attributes := by
  cases s with
  | between attributes => exact ⟨attributes, rfl⟩
  | within first depth => exact h.elim

theorem InStep.covers_end (h : InStep s t) :
    List.Forall₂ Covers (s.spans n []) (useStatements (n - 1) t []) := by
  cases s <;> cases t <;> simp_all [InStep, ImportSearch.spans, useStatements, Covers]

/-- If the statements lie apart, the search covers them, and those of the first `m` lines. -/
theorem InStep.covers (h : InStep s t) {last : Nat}
    (hapart : Apart (useStatements last t (lettersFrom n rows))) (m : Nat) :
    List.Forall₂ Covers (s.spans n (rows.take m))
      (useStatements (n + (rows.take m).length - 1) t (lettersFrom n (rows.take m))) := by
  induction rows generalizing n s t m with
  | nil => simpa [lettersFrom] using h.covers_end
  | cons row rest ih =>
    cases m with
    | zero => exact h.covers_end
    | succ m =>
      rw [List.take_succ_cons, List.length_cons,
        show n + ((rest.take m).length + 1) - 1 = n + 1 + (rest.take m).length - 1 by omega]
      simp only [lettersFrom, ImportSearch.spans] at hapart ⊢
      rcases h.step n row with ⟨hspan, t', hnext, heq⟩ |
        ⟨span, stmt, left, hspan, hnext, hcovers, hlast, hleft, heq⟩
      · rw [heq] at hapart ⊢
        rw [hspan]
        exact ih hnext hapart m
      · rw [heq] at hapart ⊢
        rw [hspan]
        obtain ⟨hbehind, hrest⟩ := List.pairwise_cons.1 hapart
        rcases useStatements_remnant hleft with hnew | hskip
        · -- a statement would begin where this one ends
          obtain ⟨s', more, hs', hfirst⟩ := hnew last (lettersFrom (n + 1) rest)
          have := hbehind s' (by simp [hs'])
          omega
        · rw [hskip] at hrest ⊢
          exact .cons hcovers (ih hnext hrest m)

/-- If every number of lines has as many spans as statements, the statements lie apart. -/
theorem InStep.apart (h : InStep s t)
    (hlength : ∀ m, (s.spans n (rows.take m)).length =
      (useStatements (n + (rows.take m).length - 1) t (lettersFrom n (rows.take m))).length)
    (last : Nat) : Apart (useStatements last t (lettersFrom n rows)) := by
  induction rows generalizing n s t with
  | nil => cases t <;> simp [Apart, lettersFrom, useStatements]
  | cons row rest ih =>
    have hnext : ∀ m, ((s.step n row).2.toList ++ (s.step n row).1.spans (n + 1) (rest.take m)).length =
        (useStatements (n + 1 + (rest.take m).length - 1) t
          (Cell.letters n none row.cells ++ lettersFrom (n + 1) (rest.take m))).length := fun m => by
      have := hlength (m + 1)
      rwa [List.take_succ_cons, List.length_cons,
        show n + ((rest.take m).length + 1) - 1 = n + 1 + (rest.take m).length - 1 by omega] at this
    rw [lettersFrom]
    rcases h.step n row with ⟨hspan, t', hstep, heq⟩ |
      ⟨span, stmt, left, hspan, hstep, -, hlast, hleft, heq⟩
    · rw [heq]
      refine ih hstep (fun m => ?_)
      simpa [hspan, heq] using hnext m
    · rw [heq]
      rcases useStatements_remnant hleft with hnew | hskip
      · -- on the lines up to this one the search has one statement less
        obtain ⟨s', more, hs', -⟩ := hnew (n + 1 + 0 - 1) []
        obtain ⟨attributes, hstate⟩ := hstep.between
        have hfewer := hnext 0
        rw [List.take_zero, lettersFrom, hspan, hstate, heq, List.length_nil, hs'] at hfewer
        simp [ImportSearch.spans] at hfewer
      · rw [hskip]
        refine List.pairwise_cons.2 ⟨fun s' hs' => ?_, ih hstep (fun m => ?_)⟩
        · obtain ⟨x, hx, -, hline⟩ := first_mem_useStatements hs'
          have := le_line_of_mem_lettersFrom hx
          omega
        · have := hnext m
          simpa [hspan, heq, hskip] using this

end Search

theorem Covers.exists {spans stmts : List Span} (h : List.Forall₂ Covers spans stmts) {s : Span}
    (hs : s ∈ stmts) : ∃ span ∈ spans, Covers span s := by
  induction h with
  | nil => simp at hs
  | @cons span t spans stmts hcovers hrest ih =>
    rcases List.mem_cons.1 hs with rfl | hs
    · exact ⟨span, by simp, hcovers⟩
    · obtain ⟨span', hspan', hcovers'⟩ := ih hs
      exact ⟨span', List.mem_cons_of_mem span hspan', hcovers'⟩

/-- What is covered by spans that lie apart lies apart itself. -/
theorem Covers.apart {spans stmts : List Span} (h : List.Forall₂ Covers spans stmts)
    (hapart : Apart spans) : Apart stmts := by
  induction h with
  | nil => exact .nil
  | @cons span s spans stmts hcovers hrest ih =>
    obtain ⟨hbehind, htail⟩ := List.pairwise_cons.1 hapart
    refine List.pairwise_cons.2 ⟨fun t ht => ?_, ih htail⟩
    obtain ⟨span', hspan', hcovers'⟩ := Covers.exists hrest ht
    calc s.last = span.last := hcovers.2.symm
      _ < span'.first := hbehind span' hspan'
      _ ≤ t.first := hcovers'.1

/-- The spans of the imports are as many as the statements, and their table marks all lines of the
statements. -/
def Collected (rows : List Row) : Prop :=
  ∃ stmts, UseStatements rows.length (lettersFrom 1 rows) stmts ∧
    (importSpans rows).length = stmts.length ∧
    ∃ table, Checked.lineTable rows.length (importSpans rows) = .ok table ∧
      ∀ s ∈ stmts, ∀ l, s.first ≤ l → l ≤ s.last → table[l]?.getD false = true

/-- The statements of a text lie on lines of their own exactly if each has a span that covers it,
and exactly if the statements of any first lines of the text are collected. -/
theorem collected_iff_apart (lines : List (List Char)) :
    let rows := Row.ofLines .neutral lines
    ∃ stmts, (∀ stmts', UseStatements rows.length (lettersFrom 1 rows) stmts' ↔ stmts' = stmts) ∧
      (Apart stmts ↔ List.Forall₂ Covers (importSpans rows) stmts) ∧
      (Apart stmts ↔ ∀ m, Collected (Row.ofLines .neutral (lines.take m))) := by
  intro rows
  have hstart : InStep (.between 0) none := trivial
  have htake : ∀ m, Row.ofLines .neutral (lines.take m) = rows.take m := Row.ofLines_take .neutral lines
  have hcovers : ∀ {m}, Apart (useStatements rows.length none (lettersFrom 1 rows)) →
      List.Forall₂ Covers (importSpans (rows.take m))
        (useStatements (rows.take m).length none (lettersFrom 1 (rows.take m))) := fun {m} hapart => by
    have := hstart.covers hapart m
    rwa [Nat.add_sub_cancel_left] at this
  refine ⟨useStatements rows.length none (lettersFrom 1 rows), fun _ => useStatements_iff,
    ⟨fun hapart => ?_, fun h => Covers.apart h (importSpans_pairwise rows)⟩,
    ⟨fun hapart m => ?_, fun h => hstart.apart (fun m => ?_) rows.length⟩⟩
  · have := hcovers (m := rows.length) hapart
    rwa [List.take_length] at this
  · rw [htake]
    obtain ⟨table, htable, hmarks⟩ := lineTable_importSpans (rows.take m)
    refine ⟨_, useStatements_iff.2 rfl, (hcovers hapart).length_eq, table, htable,
      fun s hs l hfirst hlast => ?_⟩
    obtain ⟨span, hspan, hspan_first, hspan_last⟩ := Covers.exists (hcovers hapart) hs
    rw [hmarks, ownsLine_iff]
    exact ⟨span, hspan, by omega, by omega⟩
  · obtain ⟨stmts, hstmts, hlength, -⟩ := h m
    rw [htake] at hstmts hlength
    rw [Nat.add_sub_cancel_left, ← hstmts.eq, ← hlength]
    rfl

/-- What follows a statement on its last line is passed over, though a statement may begin there. -/
theorem two_uses_on_a_line :
    let rows := Row.ofLines .neutral ["use a; use b::\x7b".toList, "c\x7d;".toList]
    UseStatements 2 (lettersFrom 1 rows) [⟨1, 1⟩, ⟨1, 2⟩] ∧ importSpans rows = [⟨1, 1⟩] ∧
      ownsLine (importSpans rows) 2 = false ∧
      Checked.lineTable 2 (importSpans rows) = .ok [false, true, false] ∧ ¬ Collected rows := by
  intro rows
  have hstmts : UseStatements 2 (lettersFrom 1 rows) [⟨1, 1⟩, ⟨1, 2⟩] :=
    useStatements_iff.2 (by decide)
  have hspans : importSpans rows = [⟨1, 1⟩] := by decide
  refine ⟨hstmts, hspans, by rw [hspans]; rfl, by rw [hspans]; rfl, fun hgiven => ?_⟩
  obtain ⟨stmts, hall, hlength, -⟩ := hgiven
  obtain rfl : stmts = [⟨1, 1⟩, ⟨1, 2⟩] := hall.eq.trans hstmts.eq.symm
  simp [hspans] at hlength

end CodeFolding
