/-!
Lines of a text. A line ends at `\r\n`, at `\n` or at a `\r` alone; a text that ends in a line end
has a last empty line, and the empty text is one empty line.
-/

set_option autoImplicit false

namespace CodeFolding

/-- Puts a character in front of the first line. -/
def consFirst (c : Char) : List (List Char) → List (List Char)
  | [] => [[c]]
  | line :: rest => (c :: line) :: rest

def splitLines : List Char → List (List Char)
  | [] => [[]]
  | '\r' :: '\n' :: rest => [] :: splitLines rest
  | '\n' :: rest => [] :: splitLines rest
  | '\r' :: rest => [] :: splitLines rest
  | c :: rest => consFirst c (splitLines rest)

theorem splitLines_ne_nil (cs : List Char) : splitLines cs ≠ [] := by
  fun_induction splitLines cs <;> simp
  unfold consFirst; split <;> simp

/-- A text without line ends. -/
def OneLine (cs : List Char) : Prop := ∀ c ∈ cs, c ≠ '\n' ∧ c ≠ '\r'

theorem OneLine.cons {c : Char} {cs : List Char} (h : OneLine (c :: cs)) :
    c ≠ '\n' ∧ c ≠ '\r' ∧ OneLine cs :=
  ⟨(h c (by simp)).1, (h c (by simp)).2, fun d hd => h d (by simp [hd])⟩

theorem OneLine.append {cs ds : List Char} (h : OneLine cs) (h' : OneLine ds) : OneLine (cs ++ ds) :=
  List.forall_mem_append.2 ⟨h, h'⟩

theorem splitLines_cons {c : Char} (hn : c ≠ '\n') (hr : c ≠ '\r') (rest : List Char) :
    splitLines (c :: rest) = consFirst c (splitLines rest) := by
  rw [splitLines]
  · rintro _ rfl
    exact fun _ => absurd rfl hr
  · exact hn
  · exact hr

theorem oneLine_of_mem_splitLines {text line : List Char} (h : line ∈ splitLines text) :
    OneLine line := by
  fun_induction splitLines text generalizing line with
  | case1 => simp_all [OneLine]
  | case2 rest ih =>
    rcases List.mem_cons.1 h with rfl | h
    · simp [OneLine]
    · exact ih h
  | case3 rest ih =>
    rcases List.mem_cons.1 h with rfl | h
    · simp [OneLine]
    · exact ih h
  | case4 rest _ ih =>
    rcases List.mem_cons.1 h with rfl | h
    · simp [OneLine]
    · exact ih h
  | case5 c rest _ hn hr ih =>
    cases hlines : splitLines rest with
    | nil => exact absurd hlines (splitLines_ne_nil rest)
    | cons first more =>
      rw [hlines] at h ih
      rcases List.mem_cons.1 h with rfl | h
      · rintro d hd
        rcases List.mem_cons.1 hd with rfl | hd
        · exact ⟨hn, hr⟩
        · exact ih (by simp) d hd
      · exact ih (by simp [h])

/-- A line and its end are split off. -/
theorem splitLines_line {line : List Char} (h : OneLine line) (rest : List Char) :
    splitLines (line ++ '\n' :: rest) = line :: splitLines rest := by
  induction line with
  | nil => simp [splitLines]
  | cons c line ih =>
    obtain ⟨hn, hr, hline⟩ := h.cons
    rw [List.cons_append, splitLines_cons hn hr, ih hline, consFirst]

theorem splitLines_last {line : List Char} (h : OneLine line) : splitLines line = [line] := by
  induction line with
  | nil => rfl
  | cons c line ih =>
    obtain ⟨hn, hr, hline⟩ := h.cons
    rw [splitLines_cons hn hr, ih hline, consFirst]

end CodeFolding
