import CodeFolding.Region.Identify
import CodeFolding.View

/-!
Line ends of a text.

Joining lines by any of the three line ends and splitting the text again gives the lines back, and
splitting a text and joining its lines by `\n` only rewrites its line ends. Regions and views see a
text through its lines, so they do not depend on the line ends.
-/

set_option autoImplicit false

namespace CodeFolding

inductive LineEnd where
  | lf
  | crlf
  | cr
  deriving DecidableEq, Repr

def LineEnd.chars : LineEnd → List Char
  | .lf => ['\n']
  | .crlf => ['\r', '\n']
  | .cr => ['\r']

/-- Lines with a line end between each two. -/
def joinLines (e : LineEnd) (lines : List (List Char)) : List Char := e.chars.intercalate lines

/-- A text with `\n` in place of each `\r\n` and of each other `\r`. -/
def plainEnds : List Char → List Char
  | [] => []
  | '\r' :: '\n' :: rest => '\n' :: plainEnds rest
  | '\r' :: rest => '\n' :: plainEnds rest
  | c :: rest => c :: plainEnds rest

section Join

variable {e : LineEnd} {line rest : List Char} {lines : List (List Char)}

@[simp] theorem joinLines_singleton (e : LineEnd) (line : List Char) : joinLines e [line] = line := by
  simp [joinLines]

theorem joinLines_cons (e : LineEnd) (line : List Char) (hlines : lines ≠ []) :
    joinLines e (line :: lines) = line ++ e.chars ++ joinLines e lines := by
  cases lines with
  | nil => exact absurd rfl hlines
  | cons next more => exact List.intercalate_cons_cons

theorem joinLines_consFirst (e : LineEnd) (c : Char) (hlines : lines ≠ []) :
    joinLines e (consFirst c lines) = c :: joinLines e lines := by
  cases lines with
  | nil => exact absurd rfl hlines
  | cons line more =>
    cases more with
    | nil => simp [consFirst]
    | cons next more => simp [consFirst, joinLines_cons]

/-- Lines that are joined do not begin with a `\n` of their own. -/
theorem head?_joinLines_cr (hlines : ∀ line ∈ lines, OneLine line) :
    (joinLines .cr lines).head? ≠ some '\n' := by
  cases lines with
  | nil => simp [joinLines]
  | cons line more =>
    have hline : line.head? ≠ some '\n' := fun h =>
      (hlines line (by simp) '\n' (List.mem_of_mem_head? h)).1 rfl
    cases more with
    | nil => simpa using hline
    | cons next more =>
      rw [joinLines_cons _ _ (by simp)]
      cases line with
      | nil => simp [LineEnd.chars]
      | cons c line => simpa using hline

/-- A line and its end are split off, whichever end it is. -/
theorem splitLines_ended (hline : OneLine line) (hrest : e = .cr → rest.head? ≠ some '\n') :
    splitLines (line ++ e.chars ++ rest) = line :: splitLines rest := by
  induction line with
  | nil =>
    cases e with
    | lf => simp [LineEnd.chars, splitLines]
    | crlf => simp [LineEnd.chars, splitLines]
    | cr =>
      have hhead := hrest rfl
      cases rest with
      | nil => rfl
      | cons c rest =>
        have hc : c ≠ '\n' := by simpa using hhead
        simp [LineEnd.chars, splitLines, hc]
  | cons c line ih =>
    obtain ⟨hn, hr, hline⟩ := hline.cons
    rw [List.append_assoc, List.cons_append, splitLines_cons hn hr, ← List.append_assoc, ih hline,
      consFirst]

theorem splitLines_joinLines (hne : lines ≠ []) (hlines : ∀ line ∈ lines, OneLine line) :
    splitLines (joinLines e lines) = lines := by
  induction lines with
  | nil => exact absurd rfl hne
  | cons line more ih =>
    have hline : OneLine line := hlines line (by simp)
    have hmore : ∀ next ∈ more, OneLine next := fun next h => hlines next (by simp [h])
    by_cases hlast : more = []
    · rw [hlast, joinLines_singleton]
      exact splitLines_last hline
    · rw [joinLines_cons e line hlast, splitLines_ended hline, ih hlast hmore]
      rintro rfl
      exact head?_joinLines_cr hmore

end Join

theorem joinLines_splitLines (text : List Char) : joinLines .lf (splitLines text) = plainEnds text := by
  fun_induction splitLines text with
  | case1 => rfl
  | case2 rest ih => simp [joinLines_cons, splitLines_ne_nil, ih, LineEnd.chars, plainEnds]
  | case3 rest ih => simp [joinLines_cons, splitLines_ne_nil, ih, LineEnd.chars, plainEnds]
  | case4 rest hrest ih =>
    rw [joinLines_cons _ _ (splitLines_ne_nil rest), ih, plainEnds]
    · rfl
    · exact hrest
  | case5 c rest hcrlf hn hr ih =>
    rw [joinLines_consFirst _ _ (splitLines_ne_nil rest), ih, plainEnds]
    · exact hcrlf
    · exact hr

/-- Lines and texts are the same up to line ends, whichever ends are written, and neither regions
nor views tell a text from the one with plain ends. -/
theorem lines_regardless_of_ends (text : List Char) :
    (∀ line ∈ splitLines text, OneLine line) ∧
    joinLines .lf (splitLines text) = plainEnds text ∧
    splitLines (plainEnds text) = splitLines text ∧
    (∀ (e : LineEnd) (lines : List (List Char)), lines ≠ [] → (∀ line ∈ lines, OneLine line) →
      splitLines (joinLines e lines) = lines) ∧
    (∀ policy, identify policy (plainEnds text) = identify policy text) ∧
    (∀ style regions,
      View.render style (plainEnds text) regions = View.render style text regions ∧
      View.hidden (plainEnds text) regions = View.hidden text regions) := by
  have hlines : ∀ line ∈ splitLines text, OneLine line := fun _ => oneLine_of_mem_splitLines
  have hsame : splitLines (plainEnds text) = splitLines text := by
    rw [← joinLines_splitLines, splitLines_joinLines (splitLines_ne_nil text) hlines]
  have hshown : View.shownLines (plainEnds text) = View.shownLines text := by
    simp only [View.shownLines, hsame]
  refine ⟨hlines, joinLines_splitLines text, hsame, fun e lines => splitLines_joinLines,
    fun policy => ?_, fun style regions => ⟨?_, ?_⟩⟩
  · simp only [identify, rowsOf, hsame]
  · simp only [View.render, View.rows, View.numberWidth, hshown]
  · simp only [View.hidden, hshown]

/-- Two empty lines and a last one without an end, joined by `\r` alone. -/
theorem empty_lines_joined :
    let lines := [[], [], "a".toList]
    lines ≠ [] ∧ (∀ line ∈ lines, OneLine line) ∧ splitLines (joinLines .cr lines) = lines := by
  intro lines
  have hne : lines ≠ [] := by simp [lines]
  have hlines : ∀ line ∈ lines, OneLine line := by
    intro line hline c hc
    simp only [lines, List.mem_cons, List.not_mem_nil, or_false] at hline
    rcases hline with rfl | rfl | rfl <;> simp_all
  exact ⟨hne, hlines, (lines_regardless_of_ends []).2.2.2.1 .cr lines hne hlines⟩

end CodeFolding
