import CodeFolding.Proofs.Independence
import CodeFolding.Proofs.Remarks

/-!
Comments at the ends of lines.

Where a line leaves no comment and no literal open, a line comment behind it is a remark, and the
line leaves nothing open with it either. So the next line is read as it was, and the regions of a
text do not depend on such comments, whatever is written in them.
-/

set_option autoImplicit false

namespace CodeFolding

/-- A line with a comment behind it, if there is one. -/
def withComment (line : List Char) : Option (List Char) → List Char
  | none => line
  | some text => line ++ (" //".toList ++ text)

theorem remark_of_comment (text : List Char) : Remark (" //".toList ++ text) :=
  .blank (by decide) (.comment text)

theorem oneLine_withComment {line : List Char} {comment : Option (List Char)} (hline : OneLine line)
    (hcomment : ∀ text, comment = some text → OneLine text) : OneLine (withComment line comment) := by
  cases comment with
  | none => exact hline
  | some text =>
    have hmarks : OneLine " //".toList := by simp [OneLine]
    exact hline.append (hmarks.append (hcomment text rfl))

/-- The rows of lines with comments match those of the lines. -/
theorem ofLines_comments {lines : List (List Char)} {comments : List (Option (List Char))} {s : Carry}
    (hs : Reachable s) (hlen : comments.length = lines.length)
    (hneutral : ∀ i text, comments[i]? = some (some text) → s.after (lines.take (i + 1)) = .neutral) :
    List.Forall₂ Row.Matches (Row.ofLines s (List.zipWith withComment lines comments))
      (Row.ofLines s lines) := by
  induction lines generalizing comments s with
  | nil => simp [Row.ofLines]
  | cons line rest ih =>
    cases comments with
    | nil => simp at hlen
    | cons comment comments =>
      have hrow : Row.Matches
          ⟨withComment line comment, s, (classify s (withComment line comment)).1⟩
          ⟨line, s, (classify s line).1⟩ ∧
          (classify s (withComment line comment)).2 = (classify s line).2 := by
        cases comment with
        | none => exact ⟨⟨fun _ _ => rfl, fun _ _ _ _ => rfl⟩, rfl⟩
        | some text =>
          have hend : (classify s line).2 = .neutral := hneutral 0 text rfl
          have hgap : ∀ c ∈ (" //".toList ++ text).head?, isBlank c = true := by
            rintro c ⟨⟩
            decide
          obtain ⟨hmatch, hcarry⟩ :=
            matches_remark hs.plain (remark_of_comment text) (.inr hgap) hend
          exact ⟨hmatch, hcarry.trans hend.symm⟩
      rw [List.zipWith_cons_cons, Row.ofLines, Row.ofLines, hrow.2]
      refine .cons hrow.1 (ih (.line line hs) (by simpa using hlen) fun i text hi => ?_)
      simpa [Carry.after] using hneutral (i + 1) text (by simpa using hi)

/-- Comments behind lines that leave no comment and no literal open do not change the regions of a
text. -/
theorem identify_trailing_comments (policy : Policy) (e : LineEnd) (lines : List (List Char))
    (comments : List (Option (List Char))) (hlen : comments.length = lines.length)
    (hlines : ∀ line ∈ lines, OneLine line)
    (hcomments : ∀ text, some text ∈ comments → OneLine text)
    (hneutral : ∀ i text, comments[i]? = some (some text) →
      Carry.neutral.after (lines.take (i + 1)) = .neutral) :
    identify policy (joinLines e (List.zipWith withComment lines comments)) =
      identify policy (joinLines e lines) := by
  have hcommented : ∀ line ∈ List.zipWith withComment lines comments, OneLine line := by
    intro line hline
    obtain ⟨i, hi, rfl⟩ := List.getElem_of_mem hline
    rw [List.getElem_zipWith]
    refine oneLine_withComment (hlines _ (List.getElem_mem _)) fun text htext => ?_
    exact hcomments text (htext ▸ List.getElem_mem _)
  exact identify_joinLines_eq hcommented hlines (ofLines_comments .start hlen hneutral) policy e

/-- The end of a scope and a keyword in the comment of a visibility, a brace and a quote in that of
a signature, and a statement behind a line comment; the line with an open block comment has none. -/
theorem identify_trailing_comments_in_signature :
    let lines := ["pub(".toList, "fn f( /* ".toList, "*/ a: &'a str,".toList, ") // \x7b".toList,
      "\x7b g();".toList, "\x7d".toList]
    let comments := [some ") fn f() \x7b".toList, none, some "\x7d \" '".toList,
      some "use a;".toList, none, some [] ]
    comments.length = lines.length ∧ (∀ line ∈ lines, OneLine line) ∧
      (∀ text, some text ∈ comments → OneLine text) ∧
      (∀ i text, comments[i]? = some (some text) →
        Carry.neutral.after (lines.take (i + 1)) = .neutral) ∧
      identify .standard (joinLines .lf (List.zipWith withComment lines comments)) =
        identify .standard (joinLines .lf lines) := by
  intro lines comments
  have hlines : ∀ line ∈ lines, OneLine line := by simp [lines, OneLine]
  have hcomments : ∀ text, some text ∈ comments → OneLine text := by simp [comments, OneLine]
  have hneutral : ∀ i text, comments[i]? = some (some text) →
      Carry.neutral.after (lines.take (i + 1)) = .neutral := by
    intro i text hi
    rcases i with _ | _ | _ | _ | _ | _ | i
    · decide
    · simp [comments] at hi
    · decide
    · decide
    · simp [comments] at hi
    · decide
    · simp [comments] at hi
  exact ⟨rfl, hlines, hcomments, hneutral,
    identify_trailing_comments .standard .lf lines comments rfl hlines hcomments hneutral⟩

end CodeFolding
