import Mathlib.Data.List.Forall2
import Mathlib.Tactic.ByContra
import CodeFolding.View

/-!
The rows of a plain view.

No row holds a line feed, so cutting the text of the view at its line feeds gives the rows: one for
the imports if there are any, and one for each line that no folded region hides. The gutter of each
row has the same width, and behind it stands the line as it is.
-/

set_option autoImplicit false

namespace CodeFolding

/-- A block, not the imports, that starts on a line. -/
def Region.startsOn (l : Nat) (r : Region) : Bool := !r.isImports && r.first == l

def Region.mark (r : Region) : Char := if r.folded then '►' else '▼'

def Region.foldNote (r : Region) : List Char :=
  " ... \x7b".toList ++ digits r.bodyLines ++ "\x7d lines ... ".toList

/-- A mark, a column of `w` characters with a number flush right, and a bar. -/
def gutterText (w : Nat) (mark : Char) (number : List Char) : List Char :=
  mark :: ' ' :: (List.replicate (w - number.length) ' ' ++ number ++ " | ".toList)

/-- The row of the import block, which is the first if there are several. -/
def IsHeader (w : Nat) (regions : List Region) (row : List Char) : Prop :=
  ∃ r, regions.find? Region.isImports = some r ∧
    row = gutterText w r.mark [] ++
      ("use ... (".toList ++ digits (r.statements.getD 0) ++ " statements)".toList)

/-- The row of line `l`, which is `text`, with the mark of the first block that starts there and the
note of the first folded one. -/
def IsLineRow (w : Nat) (regions : List Region) (l : Nat) (text row : List Char) : Prop :=
  ∃ mark note, row = gutterText w mark (digits l) ++ text ++ note ∧ (digits l).length ≤ w ∧
    mark = ((regions.find? (Region.startsOn l)).map Region.mark).getD ' ' ∧
    (note ≠ [] ↔ ∃ r ∈ regions, r.startsOn l = true ∧ r.folded = true) ∧
    note = ((regions.find? fun r => r.startsOn l && r.folded).map Region.foldNote).getD []

theorem length_gutterText {w : Nat} {number : List Char} (h : number.length ≤ w) (mark : Char) :
    (gutterText w mark number).length = w + 5 := by
  have hbar : " | ".toList.length = 3 := rfl
  change (mark :: ' ' :: (List.replicate (w - number.length) ' ' ++ number ++ " | ".toList)).length = _
  simp only [List.length_cons, List.length_append, List.length_replicate]
  omega

theorem length_digits_le {l m : Nat} (h : l ≤ m) : (digits l).length ≤ (digits m).length := by
  have hpos : 0 < (digits m).length := List.length_pos_iff.2 Nat.toDigits_ne_nil
  have hm : m < 10 ^ (digits m).length :=
    (Nat.length_toDigits_le_iff (by decide) hpos).1 (Nat.le_refl _)
  exact (Nat.length_toDigits_le_iff (by decide) hpos).2 (Nat.lt_of_le_of_lt h hm)

theorem splitOn_ended {rows : List (List Char)} (h : ∀ row ∈ rows, '\n' ∉ row) :
    (rows.flatMap (· ++ ['\n'])).splitOn '\n' = rows ++ [[]] := by
  have hjoin : rows.flatMap (· ++ ['\n']) = ['\n'].intercalate (rows ++ [[]]) := by
    induction rows with
    | nil => rfl
    | cons row rest ih =>
      rw [List.flatMap_cons, ih fun r hr => h r (by simp [hr]), List.append_assoc]
      cases rest <;> simp [List.intercalate]
  rw [hjoin]
  refine List.splitOn_intercalate '\n' ?_ (by simp)
  simpa [or_imp, forall_and] using h

theorem lineFeed_notMem_digits (n : Nat) : '\n' ∉ digits n := fun h =>
  ne_of_isDigit (d := '\n') (isDigit_of_mem_digits h) rfl rfl

theorem lineFeed_notMem_gutterText {mark : Char} {number : List Char} (hmark : '\n' ≠ mark)
    (hnumber : '\n' ∉ number) (w : Nat) : '\n' ∉ gutterText w mark number := by
  change '\n' ∉ mark :: ' ' :: (List.replicate (w - number.length) ' ' ++ number ++ " | ".toList)
  simp [hmark, hnumber]

theorem Region.mark_ne_lineFeed (r : Region) : '\n' ≠ r.mark := by
  cases hr : r.folded <;> simp [Region.mark, hr]

theorem Region.lineFeed_notMem_foldNote (r : Region) : '\n' ∉ r.foldNote := by
  have hopen : '\n' ∉ " ... \x7b".toList := by decide
  have hlines : '\n' ∉ "\x7d lines ... ".toList := by decide
  change '\n' ∉ " ... \x7b".toList ++ digits r.bodyLines ++ "\x7d lines ... ".toList
  rw [List.mem_append, List.mem_append, not_or, not_or]
  exact ⟨⟨hopen, lineFeed_notMem_digits _⟩, hlines⟩

theorem IsHeader.lineFeed_notMem {w : Nat} {regions : List Region} {row : List Char}
    (h : IsHeader w regions row) : '\n' ∉ row := by
  obtain ⟨r, -, rfl⟩ := h
  have hgutter := lineFeed_notMem_gutterText r.mark_ne_lineFeed (List.not_mem_nil (a := '\n')) w
  have huse : '\n' ∉ "use ... (".toList := by decide
  have hstatements : '\n' ∉ " statements)".toList := by decide
  simp only [List.mem_append, not_or]
  exact ⟨hgutter, ⟨huse, lineFeed_notMem_digits _⟩, hstatements⟩

theorem IsLineRow.lineFeed_notMem {w l : Nat} {regions : List Region} {text row : List Char}
    (h : IsLineRow w regions l text row) (htext : OneLine text) : '\n' ∉ row := by
  obtain ⟨mark, note, rfl, -, hmark, -, hnote⟩ := h
  have hmark : '\n' ≠ mark := by
    rw [hmark]
    cases regions.find? (Region.startsOn l) with
    | none => simp
    | some r => exact r.mark_ne_lineFeed
  have hnote : '\n' ∉ note := by
    rw [hnote]
    cases regions.find? (fun r => r.startsOn l && r.folded) with
    | none => simp
    | some r => exact r.lineFeed_notMem_foldNote
  have hgutter := lineFeed_notMem_gutterText hmark (lineFeed_notMem_digits l) w
  have htext : '\n' ∉ text := fun hmem => (htext '\n' hmem).1 rfl
  simp [hgutter, htext, hnote]

theorem IsLineRow.drop {w l : Nat} {regions : List Region} {text row : List Char}
    (h : IsLineRow w regions l text row) (hopen : ∀ r ∈ regions, r.folded = false) :
    row.drop (w + 5) = text := by
  obtain ⟨mark, note, rfl, hw, -, hnote, -⟩ := h
  have hnone : note = [] := by
    by_contra hne
    obtain ⟨r, hr, -, hfolded⟩ := hnote.1 hne
    simp [hopen r hr] at hfolded
  rw [hnone, List.append_nil, ← length_gutterText hw mark, List.drop_left]

namespace View

variable {w n l : Nat} {regions : List Region} {text row : List Char} {lines : List (List Char)}

theorem gutter_plain (w : Nat) (start : Option Region) (number : List Char) :
    gutter .plain w start number = gutterText w ((start.map Region.mark).getD ' ') number := by
  have hmark : marker .plain start = [(start.map Region.mark).getD ' '] := by
    cases start with
    | none => rfl
    | some r => exact (apply_ite (fun c => [c]) (r.folded = true) '►' '▼').symm
  rw [gutter, hmark, padLeft, List.append_assoc]
  rfl

theorem isHeader_importsRow {r : Region} (h : regions.find? Region.isImports = some r) (w : Nat) :
    IsHeader w regions (importsRow .plain w r) :=
  ⟨r, h, by rw [importsRow, gutter_plain]; rfl⟩

theorem isLineRow_lineRow (hw : (digits l).length ≤ w) (regions : List Region) (text : List Char) :
    IsLineRow w regions l text (lineRow .plain w regions l text) := by
  refine ⟨_, _, by rw [lineRow, gutter_plain]; rfl, hw, rfl, ?_, rfl⟩
  have hfind : (regions.find? fun r => r.startsOn l && r.folded).isSome = true ↔
      ∃ r ∈ regions, r.startsOn l = true ∧ r.folded = true := by
    rw [List.find?_isSome]
    simp only [Bool.and_eq_true]
  rw [← hfind]
  cases regions.find? (fun r => r.startsOn l && r.folded) with
  | none => simp
  | some r => exact iff_of_true (List.cons_ne_nil ' ' _) rfl

/-- The shown lines are counted by their rows and by what is hidden. -/
theorem length_lineRows (style : Style) (w : Nat) (regions : List Region) (n : Nat)
    (lines : List (List Char)) :
    (lineRows style w regions n lines).length + hiddenFrom regions n lines.length =
      lines.length := by
  induction lines generalizing n with
  | nil => rfl
  | cons text rest ih =>
    have hrest := ih (n + 1)
    rw [lineRows, List.length_cons, hiddenFrom]
    split
    · omega
    · rw [List.length_cons]
      omega

/-- The rows of lines stand for the lines that are not hidden, in order. -/
theorem forall₂_lineRows (P : Nat → List Char → Prop) (style : Style) (regions : List Region)
    (lines : List (List Char))
    (hP : ∀ i text, lines[i]? = some text → P (n + i) (lineRow style w regions (n + i) text)) :
    List.Forall₂ P ((List.range' n lines.length).filter fun l => !isHidden regions l)
      (lineRows style w regions n lines) := by
  induction lines generalizing n with
  | nil => exact .nil
  | cons text rest ih =>
    have hrest := ih (n := n + 1) fun i text hi => by
      rw [Nat.add_assoc, Nat.add_comm 1]
      exact hP (i + 1) text hi
    rw [List.length_cons, List.range'_succ, lineRows]
    cases hidden : isHidden regions n with
    | true => simpa [hidden] using hrest
    | false => simpa [hidden] using List.Forall₂.cons (hP 0 text rfl) hrest

theorem forall₂_isLineRow (regions : List Region) (hw : ∀ l, l ≤ lines.length → (digits l).length ≤ w) :
    List.Forall₂ (fun l row => ∃ text, lines[l - 1]? = some text ∧ IsLineRow w regions l text row)
      ((List.range' 1 lines.length).filter fun l => !isHidden regions l)
      (lineRows .plain w regions 1 lines) := by
  refine forall₂_lineRows _ .plain regions lines fun i text hi => ?_
  have hlt := (List.getElem?_eq_some_iff.1 hi).1
  exact ⟨text, by rwa [Nat.add_sub_cancel_left], isLineRow_lineRow (hw _ (by omega)) regions text⟩

theorem lineFeed_notMem_lineRows {regions : List Region}
    (hw : ∀ l, l ≤ lines.length → (digits l).length ≤ w) (hlines : ∀ text ∈ lines, OneLine text) :
    ∀ row ∈ lineRows .plain w regions 1 lines, '\n' ∉ row := by
  intro row hrow
  have hrows := forall₂_isLineRow regions hw
  obtain ⟨k, rfl⟩ := List.get_of_mem hrow
  obtain ⟨text, htext, hline⟩ := hrows.get (by rw [hrows.length_eq]; exact k.2) k.2
  exact hline.lineFeed_notMem (hlines text (List.mem_of_getElem? htext))

def headerRows (w : Nat) (regions : List Region) : List (List Char) :=
  ((regions.find? Region.isImports).map (importsRow .plain w)).toList

theorem length_headerRows (w : Nat) (regions : List Region) : (headerRows w regions).length =
    if ∃ r ∈ regions, r.isImports = true then 1 else 0 := by
  simp only [headerRows, ← List.find?_isSome]
  cases regions.find? Region.isImports <;> rfl

theorem isHeader_of_mem (h : row ∈ headerRows w regions) : IsHeader w regions row := by
  obtain ⟨r, hr, rfl⟩ := Option.map_eq_some_iff.1 (Option.mem_toList.1 h)
  exact isHeader_importsRow hr w

theorem isHidden_eq_not_all (regions : List Region) :
    (fun l => !isHidden regions l) = fun l => regions.all fun r => !(r.folded && r.hides l) := by
  funext l
  simp [isHidden, List.all_eq_not_any_not]

theorem isHidden_eq_false (hopen : ∀ r ∈ regions, r.folded = false) (l : Nat) :
    isHidden regions l = false := by
  rw [isHidden, List.any_eq_false]
  intro r hr
  simp [hopen r hr]

theorem map_drop_lineRows (hopen : ∀ r ∈ regions, r.folded = false)
    (hw : ∀ l, l < n + lines.length → (digits l).length ≤ w) :
    (lineRows .plain w regions n lines).map (·.drop (w + 5)) = lines := by
  induction lines generalizing n with
  | nil => rfl
  | cons text rest ih =>
    rw [List.length_cons] at hw
    have hrow := isLineRow_lineRow (hw n (by omega)) regions text
    rw [lineRows, isHidden_eq_false hopen, if_neg Bool.false_ne_true, List.map_cons,
      hrow.drop hopen, ih fun l hl => hw l (by omega)]

end View

/-- A plain view cut at its line feeds: the row of the imports if there are any, and a row for each
of the `m` shown lines that no folded region hides. -/
theorem plain_view_rows (source : List Char) (regions : List Region) :
    let lines := splitLines source
    let m := if 1 < lines.length ∧ lines.getLast? = some [] then lines.length - 1 else lines.length
    let w := (digits m).length
    ∃ header body : List (List Char),
      (View.render .plain source regions).splitOn '\n' = header ++ body ++ [[]] ∧
      header.length = (if ∃ r ∈ regions, r.isImports = true then 1 else 0) ∧
      (∀ row ∈ header, IsHeader w regions row) ∧
      List.Forall₂ (fun l row => ∃ text, lines[l - 1]? = some text ∧ IsLineRow w regions l text row)
        ((List.range' 1 m).filter fun l => regions.all fun r => !(r.folded && r.hides l)) body ∧
      body.length + View.hidden source regions = m ∧
      ((∀ r ∈ regions, r.folded = false) → body.map (·.drop (w + 5)) = lines.take m) := by
  intro lines m w
  have hm : (View.shownLines source).length = m := View.length_shownLines source
  have hshown : View.shownLines source = lines.take m := by rw [View.shownLines_eq_take, hm]
  have hlength : (lines.take m).length = m := by rw [← hshown, hm]
  have hwidth : ∀ l, l ≤ (lines.take m).length → (digits l).length ≤ w := fun l hl =>
    length_digits_le (by rwa [hlength] at hl)
  have hrows : View.rows .plain source regions =
      View.headerRows w regions ++ View.lineRows .plain w regions 1 (lines.take m) := by
    rw [View.rows, View.numberWidth, hshown, hlength]
    rfl
  have hbody := View.forall₂_isLineRow regions hwidth
  rw [View.isHidden_eq_not_all, hlength] at hbody
  refine ⟨View.headerRows w regions, View.lineRows .plain w regions 1 (lines.take m), ?_,
    View.length_headerRows w regions, fun row => View.isHeader_of_mem, ?_, ?_,
    fun hopen => View.map_drop_lineRows hopen fun l hl => hwidth l (by omega)⟩
  · rw [View.render, hrows]
    refine splitOn_ended fun row hrow => ?_
    rcases List.mem_append.1 hrow with hrow | hrow
    · exact (View.isHeader_of_mem hrow).lineFeed_notMem
    · exact View.lineFeed_notMem_lineRows hwidth
        (fun text ht => oneLine_of_mem_splitLines (List.mem_of_mem_take ht)) row hrow
  · refine hbody.imp fun l row ⟨text, htext, hrow⟩ => ⟨text, ?_, hrow⟩
    obtain ⟨hlt, htext⟩ := List.getElem?_eq_some_iff.1 htext
    rw [← htext, List.getElem_take]
    exact List.getElem?_eq_getElem _
  · rw [View.hidden, hm]
    have hcount := View.length_lineRows .plain w regions 1 (lines.take m)
    rwa [hlength] at hcount

end CodeFolding
