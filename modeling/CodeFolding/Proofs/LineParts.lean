import CodeFolding.Proofs.Modes

/-!
Parts of a line that are read apart.

The reader of a line looks ahead over an identifier or over hash signs, and behind over two
characters, but never across a blank. So what follows a blank is read as a line of its own, from
what is open there, with its cells further on.
-/

set_option autoImplicit false

namespace CodeFolding

/-! ## Blanks -/

theorem toNat_of_isBlank {c : Char} (h : isBlank c = true) :
    c.toNat ∈ blankTable.flatMap fun r => List.range' r.1 (r.2 - r.1 + 1) := by
  simp only [isBlank, CharTable.has, blankTable, CharTable.covers] at h
  simp only [blankTable, List.flatMap_cons, List.flatMap_nil, List.mem_append, List.mem_range'_1]
  grind

theorem continuesIdentifier_of_isBlank {c : Char} (h : isBlank c = true) :
    continuesIdentifier c = false := by
  have hall : ∀ n ∈ blankTable.flatMap fun r => List.range' r.1 (r.2 - r.1 + 1),
      (letterTable.covers n || numeralTable.covers n || n == 95) = false := by decide +kernel
  have hc := hall _ (toNat_of_isBlank h)
  simp only [Bool.or_eq_false_iff, beq_eq_false_iff_ne] at hc
  have hu : c ≠ '_' := by
    rintro rfl
    exact hc.2 rfl
  simp [continuesIdentifier, isLetter, isNumeral, CharTable.has, hc, hu]

theorem ne_of_isBlank {c d : Char} (hc : isBlank c = true) (hd : isBlank d = false) : c ≠ d := by
  rintro rfl
  simp [hc] at hd

theorem startsIdentifier_of_isBlank {c : Char} (h : isBlank c = true) :
    startsIdentifier c = false := by
  have hcontinues := continuesIdentifier_of_isBlank h
  simp only [continuesIdentifier, Bool.or_eq_false_iff] at hcontinues
  simp [startsIdentifier, hcontinues]

/-! ## Looking ahead -/

/-- Two texts of which the reader sees the same when it looks ahead. -/
structure SameAhead (rest rest' : List Char) : Prop where
  slash : rest.head? = some '/' ↔ rest'.head? = some '/'
  star : rest.head? = some '*' ↔ rest'.head? = some '*'
  quoted : opensQuoted rest = opensQuoted rest'
  raw : opensRaw rest = opensRaw rest'

theorem SameAhead.symm {rest rest' : List Char} (h : SameAhead rest rest') : SameAhead rest' rest :=
  ⟨h.slash.symm, h.star.symm, h.quoted.symm, h.raw.symm⟩

theorem SameAhead.trans {u v w : List Char} (h : SameAhead u v) (h' : SameAhead v w) :
    SameAhead u w :=
  ⟨h.slash.trans h'.slash, h.star.trans h'.star, h.quoted.trans h'.quoted, h.raw.trans h'.raw⟩

theorem head?_dropWhile_append {p : Char → Bool} {w stop : Char} (hp : p w = false) (hw : w ≠ stop)
    (rest more : List Char) :
    ((rest ++ w :: more).dropWhile p).head? = some stop ↔ (rest.dropWhile p).head? = some stop := by
  induction rest with
  | nil => simp [hp, hw]
  | cons c rest ih =>
    cases hc : p c with
    | false => simp [hc]
    | true => simpa [hc] using ih

/-- A blank looks like the end of the line. -/
theorem sameAhead_blank {w : Char} (hw : isBlank w = true) (rest more : List Char) :
    SameAhead (rest ++ w :: more) rest where
  slash := by cases rest <;> simp [ne_of_isBlank hw (d := '/') (by decide)]
  star := by cases rest <;> simp [ne_of_isBlank hw (d := '*') (by decide)]
  quoted := by
    cases rest with
    | nil => simp [opensQuoted, startsIdentifier_of_isBlank hw]
    | cons c rest =>
      have hquote := head?_dropWhile_append (continuesIdentifier_of_isBlank hw)
        (ne_of_isBlank hw (d := '\'') (by decide)) (c :: rest) more
      simp only [List.cons_append, opensQuoted]
      split
      · rw [Bool.eq_iff_iff, beq_iff_eq, beq_iff_eq]
        exact hquote
      · rfl
  raw := by
    have hhash : (w == '#') = false := by simpa using ne_of_isBlank hw (d := '#') (by decide)
    rw [opensRaw, opensRaw, Bool.eq_iff_iff, beq_iff_eq, beq_iff_eq]
    exact head?_dropWhile_append (p := (· == '#')) hhash (ne_of_isBlank hw (by decide)) rest more

namespace Mode

variable {behind text tail rest rest' : List Char} {m : Mode} {c w : Char}

/-- A step depends on what is ahead only by what the reader sees of it, and on whether a backslash is
the last character. -/
theorem step_ahead (h : SameAhead rest rest') (hlast : c = '\\' → (rest = [] ↔ rest' = [])) :
    m.step behind c rest = m.step behind c rest' := by
  cases m with
  | code => simp only [step, h.slash, h.star, h.quoted, h.raw]
  | blockComment u => simp only [step, h.slash]
  | literal d =>
    by_cases hc : c = '\\'
    · simp only [step, ne_eq, hlast hc]
    · simp only [step, hc, false_and, if_false]
  | _ => rfl

theorem step_of_isBlank (hc : isBlank c = true) (rest rest' : List Char) :
    m.step behind c rest = m.step behind c rest' := by
  have hne : ∀ d, isBlank d = false → c ≠ d := fun d hd => ne_of_isBlank hc hd
  cases m with
  | code =>
    simp only [step, hne '/' (by decide), hne '\'' (by decide), hne 'r' (by decide), false_and,
      if_false]
  | blockComment u => simp only [step, hne '*' (by decide), false_and, if_false]
  | literal d => simp only [step, hne '\\' (by decide), false_and, if_false]
  | _ => rfl

/-- A text is read in the same way whether or not the tail follows it. -/
def Apart (behind : List Char) (m : Mode) (tail : List Char) : List Char → Prop
  | [] => True
  | c :: rest =>
    m.step behind c (rest ++ tail) = m.step behind c rest ∧
      Apart (c :: behind) (m.step behind c rest).2 tail rest

theorem apart_nil : m.Apart behind [] text := by
  induction text generalizing behind m with
  | nil => trivial
  | cons c rest ih => exact ⟨by rw [List.append_nil], ih⟩

theorem apart_of_blank_last (hlast : text.getLast? = some w) (hw : isBlank w = true) :
    m.Apart behind tail text := by
  induction text generalizing behind m with
  | nil => trivial
  | cons c rest ih =>
    cases rest with
    | nil =>
      obtain rfl : c = w := by simpa using hlast
      exact ⟨step_of_isBlank hw _ _, trivial⟩
    | cons d rest =>
      rw [List.getLast?_cons_cons] at hlast
      refine ⟨?_, ih hlast⟩
      obtain ⟨front, hfront⟩ := List.getLast?_eq_some_iff.1 hlast
      rw [hfront, List.append_assoc]
      refine step_ahead ?_ (by simp)
      exact (sameAhead_blank hw front tail).trans (sameAhead_blank hw front []).symm

theorem apart_of_blank_next (hw : isBlank w = true) (hs : m.Sound text)
    (hend : (m.run behind text).2.carry = .neutral) : m.Apart behind (w :: tail) text := by
  induction text generalizing behind m with
  | nil => trivial
  | cons c rest ih =>
    refine ⟨?_, ih (hs.step behind) hend⟩
    by_cases hlast : c = '\\' ∧ rest = []
    · -- a backslash at the end would leave its literal open
      obtain ⟨rfl, rfl⟩ := hlast
      cases m with
      | literal d =>
        have hd : '\\' ≠ d := by rcases hs with rfl | rfl <;> decide
        simp [run, step, hd, carry, Carry.neutral] at hend
      | code => simp [step]
      | blockComment u => simp [step]
      | _ => rfl
    · exact step_ahead (sameAhead_blank hw rest tail) fun hc => by simp_all

end Mode

theorem classifyFrom_append {behind text tail : List Char} {m : Mode} (h : m.Apart behind tail text)
    (offset : Nat) :
    classifyFrom behind offset m (text ++ tail) =
      let front := classifyFrom behind offset m text
      let back := classifyFrom (text.reverse ++ behind) (offset + Utf8.byteLength text) front.2 tail
      (front.1 ++ back.1, back.2) := by
  induction text generalizing behind offset m with
  | nil => rfl
  | cons c rest ih =>
    simp only [List.cons_append, classifyFrom, h.1, ih h.2, Utf8.byteLength, List.reverse_cons,
      List.append_assoc, List.nil_append, ← Nat.add_assoc]

/-! ## The end of a part -/

namespace Mode

variable {behind text : List Char} {m : Mode}

theorem Sound.run (h : m.Sound text) (behind : List Char) : (m.run behind text).2.Sound [] := by
  induction text generalizing behind m with
  | nil => exact h
  | cons c rest ih => exact ih (h.step behind) (c :: behind)

theorem code_or_lineComment (h : m.Sound []) (hcarry : m.carry = .neutral) :
    m = .code ∨ m = .lineComment := by
  cases m with
  | code => exact .inl rfl
  | lineComment => exact .inr rfl
  | commentClosing u => simp [Sound] at h
  | _ => simp [carry, Carry.neutral] at hcarry

theorem lineComment_of_step {rest : List Char} {c : Char} (hm : m ≠ .lineComment)
    (h : (m.step behind c rest).2 = .lineComment) : (m.step behind c rest).1 = .lineComment := by
  cases m with
  | lineComment => exact absurd rfl hm
  | code =>
    simp only [step] at h ⊢
    repeat' split at h
    all_goals simp_all
  | blockComment u =>
    simp only [step] at h
    split at h <;> simp at h
  | literal d =>
    simp only [step] at h
    repeat' split at h
    all_goals simp at h
  | commentClosing u => cases u <;> simp [step, ofDelimiter] at h
  | rawOpening =>
    simp only [step] at h
    split at h <;> simp at h
  | commentOpening u => simp [step] at h
  | escaped d => simp [step] at h

/-- A line comment is never open without a character of it. -/
theorem lineComment_mem_run (hm : m ≠ .lineComment) (h : (m.run behind text).2 = .lineComment) :
    Role.lineComment ∈ (m.run behind text).1 := by
  induction text generalizing behind m with
  | nil => exact absurd h hm
  | cons c rest ih =>
    by_cases hnext : (m.step behind c rest).2 = .lineComment
    · exact List.mem_cons.2 (.inl (lineComment_of_step hm hnext).symm)
    · exact List.mem_cons_of_mem _ (ih hnext h)

end Mode

/-! ## Looking behind -/

theorem allowsRaw_of_ne {c : Char} (hc : c ≠ 'b') (rest : List Char) :
    allowsRaw (c :: rest) = !continuesIdentifier c := by
  unfold allowsRaw
  split <;> simp_all

section Behind

variable {far : List Char}

/-- A blank looks like the start of the line. -/
theorem allowsRaw_append (hblank : ∀ c ∈ far.head?, isBlank c = true) (behind : List Char) :
    allowsRaw (behind ++ far) = allowsRaw behind := by
  cases far with
  | nil => rw [List.append_nil]
  | cons x more =>
    have hx : isBlank x = true := hblank x rfl
    have hcontinues := continuesIdentifier_of_isBlank hx
    match behind with
    | [] =>
      rw [List.nil_append, allowsRaw_of_ne (ne_of_isBlank hx (by decide)), hcontinues]
      rfl
    | [c] =>
      by_cases hc : c = 'b'
      · simp [hc, allowsRaw, hcontinues]
      · simp [allowsRaw_of_ne hc]
    | c :: d :: rest =>
      by_cases hc : c = 'b'
      · simp [hc, allowsRaw]
      · simp [allowsRaw_of_ne hc]

theorem Mode.step_behind (hblank : ∀ c ∈ far.head?, isBlank c = true) (behind : List Char) (c : Char)
    (rest : List Char) (m : Mode) : m.step (behind ++ far) c rest = m.step behind c rest := by
  cases m with
  | code => simp only [step, allowsRaw_append hblank]
  | _ => rfl

def Cell.shift (d : Nat) (c : Cell) : Cell := { c with offset := d + c.offset }

@[simp] theorem Cell.shift_char (d : Nat) (c : Cell) : (c.shift d).char = c.char := rfl

@[simp] theorem Cell.shift_isLive (d : Nat) (c : Cell) : (c.shift d).isLive = c.isLive := rfl

theorem classifyFrom_shift (hblank : ∀ c ∈ far.head?, isBlank c = true) (d : Nat)
    (behind : List Char) (offset : Nat) (m : Mode) (line : List Char) :
    classifyFrom (behind ++ far) (d + offset) m line =
      ((classifyFrom behind offset m line).1.map (Cell.shift d),
        (classifyFrom behind offset m line).2) := by
  induction line generalizing behind offset m with
  | nil => rfl
  | cons c rest ih =>
    simp only [classifyFrom, Mode.step_behind hblank, ← List.cons_append, Nat.add_assoc, ih]
    rfl

end Behind

/-! ## Parts of a line -/

theorem Carry.Plain.sound {s : Carry} (h : s.Plain) (rest : List Char) :
    (Mode.ofCarry s).Sound rest := by
  rcases h with rfl | rfl | ⟨d, rfl, hd⟩
  · trivial
  · exact rfl
  · exact hd

theorem Mode.ofCarry_ne_lineComment (s : Carry) : Mode.ofCarry s ≠ .lineComment := by
  obtain ⟨inBlockComment, delimiter⟩ := s
  cases inBlockComment <;> cases delimiter <;> simp [Mode.ofCarry, Mode.ofDelimiter]

theorem mode_of_neutral {s : Carry} {line : List Char} (hs : s.Plain)
    (hend : (classify s line).2 = .neutral) :
    (classifyFrom [] 0 (.ofCarry s) line).2 = .code ∨
      (classifyFrom [] 0 (.ofCarry s) line).2 = .lineComment := by
  have hrun := congrArg Prod.snd (classifyFrom_run [] 0 (.ofCarry s) line)
  refine Mode.code_or_lineComment ?_ hend
  exact hrun ▸ (hs.sound line).run []

/-- Behind a blank that is code a line is read as if it began there. -/
theorem classify_append {s : Carry} (hs : Reachable s) (a b : List Char)
    (hblank : a.getLast?.any isBlank = true) (hend : (classify s a).2 = .neutral)
    (hcode : ∀ c ∈ (classify s a).1, c.role ≠ .lineComment) :
    classify s (a ++ b) =
      ((classify s a).1 ++ (classify .neutral b).1.map (Cell.shift (Utf8.byteLength a)),
        (classify .neutral b).2) := by
  obtain ⟨w, hlast, hw⟩ : ∃ w, a.getLast? = some w ∧ isBlank w = true := by
    simpa [Option.any_eq_true] using hblank
  have hmode : (classifyFrom [] 0 (.ofCarry s) a).2 = .code := by
    rcases mode_of_neutral hs.plain hend with h | h
    · exact h
    · have hrun := classifyFrom_run [] 0 (.ofCarry s) a
      have hmem : Role.lineComment ∈ ((Mode.ofCarry s).run [] a).1 :=
        Mode.lineComment_mem_run (Mode.ofCarry_ne_lineComment s) (by rw [← hrun, h])
      rw [← hrun] at hmem
      obtain ⟨c, hc, hrole⟩ := List.mem_map.1 hmem
      exact absurd hrole (hcode c hc)
  have hfar : ∀ c ∈ a.reverse.head?, isBlank c = true := by
    rintro c hc
    rw [List.head?_reverse, hlast] at hc
    rwa [← Option.some.inj hc]
  have hapart : (Mode.ofCarry s).Apart [] b a := Mode.apart_of_blank_last hlast hw
  have hparts := classifyFrom_append hapart 0
  have hshift := classifyFrom_shift hfar (Utf8.byteLength a) [] 0 .code b
  simp only [List.nil_append, Nat.add_zero] at hshift
  simp only [hmode, List.append_nil, Nat.zero_add, hshift] at hparts
  rw [classify, hparts]
  rfl

/-- An `r` that is a word of its own behind a literal from the line before, and a quote behind a
hash sign that would have made it a raw literal. -/
theorem classify_append_behind_literal :
    let s : Carry := ⟨false, some '"'⟩
    let a := "\\\" b\" br ".toList
    let b := "#\"\x7b' 'c".toList
    Reachable s ∧ a.getLast?.any isBlank = true ∧ (classify s a).2 = .neutral ∧
      (∀ c ∈ (classify s a).1, c.role ≠ .lineComment) ∧
      classify s (a ++ b) =
        ((classify s a).1 ++ (classify .neutral b).1.map (Cell.shift (Utf8.byteLength a)),
          (classify .neutral b).2) := by
  intro s a b
  have hs : Reachable s := .line ['"'] .start
  have hblank : a.getLast?.any isBlank = true := by decide
  have hend : (classify s a).2 = .neutral := by decide
  have hcode : ∀ c ∈ (classify s a).1, c.role ≠ .lineComment := by decide
  exact ⟨hs, hblank, hend, hcode, classify_append hs a b hblank hend hcode⟩

end CodeFolding
