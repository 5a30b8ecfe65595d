import CodeFolding.Text.CharTable

/-!
White space: the characters with the Unicode property White_Space, and trimming them off.
-/

set_option autoImplicit false

namespace CodeFolding

/-- Code points with the property White_Space. -/
def blankTable : CharTable :=
  [(9, 13), (32, 32), (133, 133), (160, 160), (5760, 5760), (8192, 8202), (8232, 8233),
   (8239, 8239), (8287, 8287), (12288, 12288)]

def isBlank (c : Char) : Bool := blankTable.has c

def trimStart (cs : List Char) : List Char := cs.dropWhile isBlank

def trimEnd (cs : List Char) : List Char := (cs.reverse.dropWhile isBlank).reverse

theorem trimStart_spec (cs : List Char) :
    ∃ blanks, cs = blanks ++ trimStart cs ∧ ∀ c ∈ blanks, isBlank c = true :=
  ⟨cs.takeWhile isBlank, List.takeWhile_append_dropWhile.symm,
    List.all_eq_true.1 List.all_takeWhile⟩

theorem trimStart_append {blanks : List Char} (h : ∀ c ∈ blanks, isBlank c = true)
    (rest : List Char) : trimStart (blanks ++ rest) = trimStart rest :=
  List.dropWhile_append_of_pos h

theorem trimStart_eq_self_iff {cs : List Char} :
    trimStart cs = cs ↔ ∀ c, cs.head? = some c → isBlank c = false := by
  cases cs with
  | nil => simp [trimStart]
  | cons c rest =>
    cases hc : isBlank c with
    | false => simp [trimStart, hc]
    | true =>
      have hlen := (List.dropWhile_sublist isBlank (l := rest)).length_le
      refine iff_of_false (fun h => ?_) (by simp [hc])
      have := congrArg List.length h
      simp only [trimStart, List.dropWhile_cons, hc, if_true, List.length_cons] at this
      omega

@[simp] theorem trimStart_trimStart (cs : List Char) : trimStart (trimStart cs) = trimStart cs := by
  refine trimStart_eq_self_iff.2 fun c hc => ?_
  have h := List.head?_dropWhile_not isBlank cs
  rw [← trimStart, hc] at h
  simpa using h

end CodeFolding
