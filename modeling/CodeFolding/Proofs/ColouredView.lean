import CodeFolding.Proofs.PlainView

/-!
The colours of a view.

A terminal escape is the escape character, `[`, one digit or more and `m`. Deleting the escapes of a
coloured text is told piece by piece: a piece uncolours to another if, in front of any text, what
the deletion leaves of it is the other. Painted text uncolours to the text, and what a view adds to
the source beside colours has no escape character, so a coloured view without its escapes is the
plain view.
-/

set_option autoImplicit false

namespace CodeFolding

/-- The text behind an escape in front of it. -/
def behindEscape? : List Char → Option (List Char)
  | '\x1b' :: '[' :: first :: rest =>
    if first.isDigit then
      match rest.dropWhile Char.isDigit with
      | 'm' :: more => some more
      | _ => none
    else none
  | _ => none

theorem length_behindEscape? {cs more : List Char} (h : behindEscape? cs = some more) :
    more.length < cs.length := by
  unfold behindEscape? at h
  split at h
  · rename_i first rest
    have hdrop : (rest.dropWhile Char.isDigit).length ≤ rest.length :=
      (List.dropWhile_suffix _).length_le
    split at h
    · split at h
      · rename_i hm
        cases h
        rw [hm] at hdrop
        simp only [List.length_cons] at *
        omega
      · cases h
    · cases h
  · cases h

/-- A text without its escapes. -/
def withoutEscapes : List Char → List Char
  | [] => []
  | c :: rest =>
    match _h : behindEscape? (c :: rest) with
    | some more => withoutEscapes more
    | none => c :: withoutEscapes rest
termination_by cs => cs.length
decreasing_by
  · exact length_behindEscape? ‹behindEscape? (c :: rest) = some more›
  · exact Nat.lt_succ_self _

section Escapes

variable {c first : Char} {ds rest more text coloured plain coloured' plain' : List Char}

theorem behindEscape?_eq_none (h : c ≠ '\x1b') : behindEscape? (c :: rest) = none := by
  unfold behindEscape?
  split
  · rename_i heq
    exact absurd (List.cons.inj heq).1 h
  · rfl

theorem behindEscape?_escape (hfirst : first.isDigit = true) (hds : ∀ d ∈ ds, d.isDigit = true)
    (rest : List Char) :
    behindEscape? ('\x1b' :: '[' :: first :: ds ++ 'm' :: rest) = some rest := by
  have hdrop : (ds ++ 'm' :: rest).dropWhile Char.isDigit = 'm' :: rest := by
    rw [List.dropWhile_append_of_pos hds]
    rfl
  simp [behindEscape?, hfirst, hdrop]

@[simp] theorem withoutEscapes_nil : withoutEscapes [] = [] := by
  rw [withoutEscapes]

theorem withoutEscapes_of_some (h : behindEscape? (c :: rest) = some more) :
    withoutEscapes (c :: rest) = withoutEscapes more := by
  rw [withoutEscapes]
  split
  · rename_i other hother
    rw [Option.some.inj (h.symm.trans hother)]
  · rename_i hnone
    cases h.symm.trans hnone

theorem withoutEscapes_of_none (h : behindEscape? (c :: rest) = none) :
    withoutEscapes (c :: rest) = c :: withoutEscapes rest := by
  rw [withoutEscapes]
  split
  · rename_i other hother
    cases h.symm.trans hother
  · rfl

/-- Deleting the escapes leaves of a piece, in front of any text, another piece, and this one has no
escape character. -/
structure Uncolours (coloured plain : List Char) : Prop where
  deletes : ∀ rest, withoutEscapes (coloured ++ rest) = plain ++ withoutEscapes rest
  clean : '\x1b' ∉ plain

theorem Uncolours.append (h : Uncolours coloured plain) (h' : Uncolours coloured' plain') :
    Uncolours (coloured ++ coloured') (plain ++ plain') where
  deletes rest := by rw [List.append_assoc, h.deletes, h'.deletes, List.append_assoc]
  clean := by simp [h.clean, h'.clean]

theorem Uncolours.eq (h : Uncolours coloured plain) : withoutEscapes coloured = plain := by
  have hnil := h.deletes []
  rwa [List.append_nil, withoutEscapes_nil, List.append_nil] at hnil

theorem uncolours_of_notMem (h : '\x1b' ∉ text) : Uncolours text text := by
  refine ⟨fun rest => ?_, h⟩
  induction text with
  | nil => rfl
  | cons c text ih =>
    rw [List.mem_cons, not_or] at h
    rw [List.cons_append, withoutEscapes_of_none (behindEscape?_eq_none (Ne.symm h.1)), ih h.2,
      List.cons_append]

theorem uncolours_escape (first : Char) (ds : List Char) (hfirst : first.isDigit = true)
    (hds : ds.all Char.isDigit = true) :
    Uncolours ('\x1b' :: '[' :: first :: (ds ++ ['m'])) [] := by
  refine ⟨fun rest => ?_, List.not_mem_nil⟩
  have hbehind := withoutEscapes_of_some (behindEscape?_escape hfirst (List.all_eq_true.1 hds) rest)
  simpa using hbehind

theorem uncolours_colour (kind : Kind) : Uncolours kind.colour.toList [] := by
  cases kind with
  | fn => exact uncolours_escape '3' ['4'] rfl rfl
  | struct => exact uncolours_escape '3' ['6'] rfl rfl
  | enum => exact uncolours_escape '3' ['6'] rfl rfl
  | impl => exact uncolours_escape '3' ['5'] rfl rfl
  | trait => exact uncolours_escape '3' ['3'] rfl rfl
  | mod => exact uncolours_escape '3' ['1'] rfl rfl
  | imports => exact uncolours_escape '3' ['2'] rfl rfl

theorem uncolours_paint (kind : Kind) (h : '\x1b' ∉ text) :
    Uncolours (Style.coloured.paint kind text) (Style.plain.paint kind text) := by
  have hfaint : Uncolours "\x1b[2m".toList [] :=
    uncolours_escape '2' [] rfl rfl
  have hreset : Uncolours "\x1b[0m".toList [] :=
    uncolours_escape '0' [] rfl rfl
  have hpainted :=
    ((hfaint.append (uncolours_colour kind)).append (uncolours_of_notMem h)).append hreset
  rwa [List.nil_append, List.nil_append, List.append_nil] at hpainted

end Escapes

theorem escape_notMem_digits (n : Nat) : '\x1b' ∉ digits n := fun h =>
  ne_of_isDigit (d := '\x1b') (isDigit_of_mem_digits h) rfl rfl

theorem mem_of_mem_splitLines {source line : List Char} {c : Char} (h : line ∈ splitLines source)
    (hc : c ∈ line) : c ∈ source := by
  fun_induction splitLines source generalizing line with
  | case1 => simp_all
  | case2 rest ih =>
    rcases List.mem_cons.1 h with rfl | h
    · cases hc
    · simp [ih h hc]
  | case3 rest ih =>
    rcases List.mem_cons.1 h with rfl | h
    · cases hc
    · simp [ih h hc]
  | case4 rest _ ih =>
    rcases List.mem_cons.1 h with rfl | h
    · cases hc
    · simp [ih h hc]
  | case5 d rest _ _ _ ih =>
    obtain ⟨first, more, hlines⟩ := List.exists_cons_of_ne_nil (splitLines_ne_nil rest)
    rw [hlines] at h ih
    rcases List.mem_cons.1 h with rfl | h
    · rcases List.mem_cons.1 hc with rfl | hc
      · simp
      · simp [ih (by simp) hc]
    · simp [ih (by simp [h]) hc]

namespace View

variable {regions : List Region} {lines : List (List Char)}

theorem escape_notMem_padLeft {width : Nat} {number : List Char} (h : '\x1b' ∉ number) :
    '\x1b' ∉ padLeft width number := by
  simp [padLeft, List.mem_replicate, h]

theorem uncolours_marker (start : Option Region) :
    Uncolours (marker .coloured start) (marker .plain start) := by
  cases start with
  | none => exact uncolours_of_notMem (by decide)
  | some r => exact uncolours_paint r.kind (by split <;> decide)

theorem uncolours_gutter (width : Nat) (start : Option Region) {number : List Char}
    (h : '\x1b' ∉ number) :
    Uncolours (gutter .coloured width start number) (gutter .plain width start number) :=
  (((uncolours_marker start).append (uncolours_of_notMem (by decide))).append
    (uncolours_of_notMem (escape_notMem_padLeft h))).append (uncolours_of_notMem (by decide))

theorem uncolours_placeholder (r : Region) :
    Uncolours (placeholder .coloured r) (placeholder .plain r) := by
  refine uncolours_paint r.kind ?_
  have hfront : '\x1b' ∉ " ... \x7b".toList := by decide
  have hend : '\x1b' ∉ "\x7d lines ... ".toList := by decide
  simp only [List.mem_append, not_or]
  exact ⟨⟨hfront, escape_notMem_digits _⟩, hend⟩

theorem uncolours_importsRow (width : Nat) (r : Region) :
    Uncolours (importsRow .coloured width r) (importsRow .plain width r) := by
  refine (uncolours_gutter width (some r) List.not_mem_nil).append (uncolours_paint r.kind ?_)
  have hfront : '\x1b' ∉ "use ... (".toList := by decide
  have hend : '\x1b' ∉ " statements)".toList := by decide
  simp only [List.mem_append, not_or]
  exact ⟨⟨hfront, escape_notMem_digits _⟩, hend⟩

theorem uncolours_lineRow (width : Nat) (regions : List Region) (n : Nat) {text : List Char}
    (h : '\x1b' ∉ text) :
    Uncolours (lineRow .coloured width regions n text) (lineRow .plain width regions n text) := by
  have hnumber := escape_notMem_digits n
  refine ((uncolours_gutter width _ hnumber).append (uncolours_of_notMem h)).append ?_
  cases regions.find? (fun r => !r.isImports && r.first == n && r.folded) with
  | none => exact uncolours_of_notMem List.not_mem_nil
  | some r => exact uncolours_placeholder r

theorem uncolours_lineRows (width : Nat) (regions : List Region) (n : Nat)
    (h : ∀ text ∈ lines, '\x1b' ∉ text) :
    List.Forall₂ Uncolours (lineRows .coloured width regions n lines)
      (lineRows .plain width regions n lines) := by
  induction lines generalizing n with
  | nil => exact .nil
  | cons text rest ih =>
    obtain ⟨htext, hrest⟩ := List.forall_mem_cons.1 h
    rw [lineRows, lineRows]
    split
    · exact ih (n + 1) hrest
    · exact .cons (uncolours_lineRow width regions n htext) (ih (n + 1) hrest)

theorem uncolours_rows (source : List Char) (regions : List Region) (h : '\x1b' ∉ source) :
    List.Forall₂ Uncolours (rows .coloured source regions) (rows .plain source regions) := by
  refine List.rel_append ?_ (uncolours_lineRows _ _ 1 fun text htext hmem => h ?_)
  · cases regions.find? Region.isImports with
    | none => exact .nil
    | some r => exact .cons (uncolours_importsRow _ r) .nil
  · rw [shownLines_eq_take] at htext
    exact mem_of_mem_splitLines (List.mem_of_mem_take htext) hmem

theorem uncolours_ended {xs ys : List (List Char)} (h : List.Forall₂ Uncolours xs ys) :
    Uncolours (xs.flatMap (· ++ ['\n'])) (ys.flatMap (· ++ ['\n'])) := by
  induction h with
  | nil => exact uncolours_of_notMem List.not_mem_nil
  | cons hrow _ ih => exact (hrow.append (uncolours_of_notMem (by decide))).append ih

theorem uncolours_render (source : List Char) (regions : List Region) (h : '\x1b' ∉ source) :
    Uncolours (render .coloured source regions) (render .plain source regions) :=
  uncolours_ended (uncolours_rows source regions h)

/-- Each row is that of the imports or of a shown line that is not hidden, whatever the style. -/
theorem length_rows (style : Style) (source : List Char) (regions : List Region) :
    (rows style source regions).length + hidden source regions =
      (if ∃ r ∈ regions, r.isImports = true then 1 else 0) + (shownLines source).length := by
  have hlines := length_lineRows style (numberWidth source) regions 1 (shownLines source)
  rw [rows, List.length_append, hidden, Nat.add_assoc, hlines]
  simp only [← List.find?_isSome]
  cases regions.find? Region.isImports <;> rfl

end View

/-- Deleting the escapes of a coloured view gives the plain view. -/
theorem withoutEscapes_coloured (source : List Char) (regions : List Region) (h : '\x1b' ∉ source) :
    withoutEscapes (View.render .coloured source regions) = View.render .plain source regions ∧
      '\x1b' ∉ View.render .plain source regions ∧
      ∀ style, (View.rows style source regions).length + View.hidden source regions =
        (if ∃ r ∈ regions, r.isImports = true then 1 else 0) + (View.shownLines source).length :=
  have huncolours := View.uncolours_render source regions h
  ⟨huncolours.eq, huncolours.clean, fun style => View.length_rows style source regions⟩

theorem withoutEscapes_coloured_beside_brackets :
    let source := "fn f() \x7b[2m\n  31m\n\x7d".toList
    let regions := [Region.block .fn 1 3 1 0 true]
    '\x1b' ∉ source ∧ withoutEscapes (View.render .coloured source regions) =
      "► 1 | fn f() \x7b[2m ... \x7b1\x7d lines ... \n  3 | \x7d\n".toList := by
  intro source regions
  have hsource : '\x1b' ∉ source := by decide
  refine ⟨hsource, (withoutEscapes_coloured source regions hsource).1.trans ?_⟩
  decide

end CodeFolding
