import Mathlib.Data.List.TakeWhile
import CodeFolding.Proofs.Independence
import CodeFolding.Proofs.IndexedCells
import CodeFolding.Proofs.Statements
import CodeFolding.Region.Identify
import CodeFolding.View

/-!
Regions and views by indices and offsets.

The search for imports cuts lines at the offsets of their cells and counts attribute lines back, the
lines of the statements are marked in a table, and the blocks look into it. None of these steps makes
a fault, whatever the text, as long as its braces can be counted.
-/

set_option autoImplicit false

namespace CodeFolding.Checked

/-! ## Programs -/

/-- Whether a cell starts a `use` that stands alone. -/
def startsUseAt (row : Row) (c : Cell) : Checked Bool := do
  if c.char = 'u' then
    if ['u', 's', 'e'].isPrefixOf (← sliceFrom row.text c.offset) then
      let front ← sliceTo row.text c.offset
      let after := c.offset + 3
      let back ← sliceFrom row.text after
      if Cell.allowsUse front.getLast? && back.head?.all isBlank then
        return Cell.liveAt row.cells (← minus after 1)
      else return false
    else return false
  else return false

/-- The offset of the first live `use` that stands alone. -/
def useOffset? (row : Row) : List Cell → Checked (Option Nat)
  | [] => return none
  | c :: rest => do
    if c.isLive then
      if ← startsUseAt row c then return some c.offset else useOffset? row rest
    else useOffset? row rest

/-- The depth of braces in a statement after more live cells; none if it ends among them. -/
def consume (depth : Int) : List Cell → Checked (Option Int)
  | [] => return some depth
  | c :: rest => do
    if c.char = '{' then consume (← word (depth + 1)) rest
    else if c.char = '}' then
      let less ← word (depth - 1)
      if less < 0 then return none else consume less rest
    else if c.char = ';' ∧ depth = 0 then return none
    else consume depth rest

/-- The first line and the depth of the statement that is open, and how many attribute lines lie
right above. -/
structure Collector where
  statement : Option (Nat × Int)
  attributes : Nat
  deriving DecidableEq, Repr

/-- The collector after line `n`, and the statement that ends there. -/
def Collector.step (n : Nat) (row : Row) (s : Collector) : Checked (Collector × Option Span) := do
  match s.statement with
  | some (first, depth) =>
    match ← consume depth (row.cells.filter Cell.isLive) with
    | none => return (⟨none, s.attributes⟩, some ⟨first, n⟩)
    | some d => return (⟨some (first, d), s.attributes⟩, none)
  | none =>
    match ← useOffset? row row.cells with
    | some offset =>
      let first ← minus n s.attributes
      match ← consume 0 (row.cells.filter fun c => c.isLive && offset ≤ c.offset) with
      | none => return (⟨none, 0⟩, some ⟨first, n⟩)
      | some d => return (⟨some (first, d), 0⟩, none)
    | none => return (⟨none, if row.isAttribute then s.attributes + 1 else 0⟩, none)

/-- The statements of the lines from `n` on, of `last` lines in all. -/
def spansFrom (last n : Nat) (s : Collector) (carry : Carry) :
    List (List Char) → Checked (List Span)
  | [] => return s.statement.toList.map fun x => ⟨x.1, last⟩
  | line :: rest => do
    let (cells, after) ← classify carry line
    let (next, span) ← s.step n ⟨line, carry, cells⟩
    return span.toList ++ (← spansFrom last (n + 1) next after rest)

/-- The code of a line: up to its last live character that is not blank. -/
def trimmedCode (row : Row) : Checked (List Char) := do
  let stop := match row.cells.reverse.find? fun c => c.isLive && !isBlank c.char with
    | some c => c.offset + c.char.utf8Size
    | none => 0
  return trimStart (← sliceTo row.text stop)

/-- At the end of line `n` its keyword may be given up. -/
def endLine (n : Nat) (row : Row) (s : Nesting) : Checked Nesting := do
  match s.waiting with
  | some k =>
    if k.line = n ∧ Cell.hasLive row.cells '{' = false then
      if continuesSignature (← trimmedCode row) then return s else return ⟨s.braces, none⟩
    else return s
  | none => return s

/-- The blocks of the lines from `n` on. -/
def blocksFrom (policy : Policy) (table : List Bool) (n : Nat) (s : Nesting) (carry : Carry) :
    List (List Char) → Checked (List Region)
  | [] => return []
  | line :: rest => do
    let (cells, after) ← classify carry line
    let row : Row := ⟨line, carry, cells⟩
    let owned := table[n]?.getD false
    let begun : Nesting := ⟨s.braces, (Nesting.candidate? n owned row).or s.waiting⟩
    let (behind, ended) := begun.steps policy n owned (Nesting.liveChars row)
    let next ← endLine n row behind
    return ended ++ (← blocksFrom policy table (n + 1) next after rest)

def identify (policy : Policy) (source : List Char) : Checked (List Region) := do
  let lines ← splitLines source
  let spans ← spansFrom lines.length 1 ⟨none, 0⟩ .neutral lines
  let table ← lineTable lines.length spans
  let blocks ← blocksFrom policy table 1 .empty .neutral lines
  return ((importRegion? spans policy.imports).toList ++ blocks).mergeSort Region.precedes

/-- The text of a view, and how many lines it hides. -/
def view (style : Style) (source : List Char) (regions : List Region) :
    Checked (List Char × Nat) := do
  let lines ← splitLines source
  let shown := if lines.length > 1 ∧ lines.getLast? = some [] then lines.dropLast else lines
  let width := (digits shown.length).length
  let rows := ((regions.find? Region.isImports).map (View.importsRow style width)).toList ++
    View.lineRows style width regions 1 shown
  return (rows.flatMap (· ++ ['\n']), View.hiddenFrom regions 1 shown.length)

/-- The view of a text after its regions are toggled. -/
def toggledView (style : Style) (policy : Policy) (source : List Char) (toggles : List Nat) :
    Checked (List Char × Nat) := do
  let regions ← identify policy source
  view style source (Region.toggleAll regions toggles).1

/-! ## Cells and their offsets -/

/-- A row as the classification makes it. -/
def Classified (row : Row) : Prop := row.cells = (CodeFolding.classify row.before row.text).1

variable {row : Row} {front back : List Cell} {c : Cell}

def textOf (cells : List Cell) : List Char := cells.map (·.char)

theorem Classified.text (h : Classified row) : textOf row.cells = row.text := by
  rw [h, textOf, classify_chars]

theorem Classified.split (h : Classified row) (hsplit : row.cells = front ++ back) :
    row.text = textOf front ++ textOf back := by
  rw [← h.text, hsplit]
  exact List.map_append

theorem Classified.offset (h : Classified row) (hsplit : row.cells = front ++ c :: back) :
    c.offset = Utf8.byteLength (textOf front) := by
  have hcell : (classifyFrom [] 0 (.ofCarry row.before) row.text).1[front.length]? = some c := by
    have hcells : row.cells = (classifyFrom [] 0 (.ofCarry row.before) row.text).1 := h
    rw [← hcells, hsplit]
    simp
  have htake : row.text.take front.length = textOf front := by
    rw [h.split hsplit]
    simp [textOf]
  rw [classifyFrom_offset hcell, htake, Nat.zero_add]

theorem Classified.offset_lt (h : Classified row) (hsplit : row.cells = front ++ c :: back)
    {d : Cell} (hd : d ∈ front) : d.offset < c.offset := by
  obtain ⟨first, more, rfl⟩ := List.append_of_mem hd
  have hoffset := h.offset hsplit
  rw [List.append_assoc] at hsplit
  have hfirst := h.offset hsplit
  have hpos := Char.utf8Size_pos d.char
  rw [textOf, List.map_append, List.map_cons, Utf8.byteLength_append, Utf8.byteLength, ← textOf]
    at hoffset
  omega

theorem Classified.offset_le (h : Classified row) (hsplit : row.cells = front ++ c :: back)
    {d : Cell} (hd : d ∈ c :: back) : c.offset ≤ d.offset := by
  rcases List.mem_cons.1 hd with rfl | hd
  · exact Nat.le_refl _
  · obtain ⟨first, more, rfl⟩ := List.append_of_mem hd
    have hsplit' : row.cells = (front ++ c :: first) ++ d :: more := by simp [hsplit]
    exact Nat.le_of_lt (h.offset_lt hsplit' (by simp))

theorem Classified.liveAt (h : Classified row) (hsplit : row.cells = front ++ c :: back) :
    Cell.liveAt row.cells c.offset = c.isLive := by
  have hfront : front.find? (·.offset == c.offset) = none := by
    rw [List.find?_eq_none]
    intro d hd
    have := h.offset_lt hsplit hd
    simp only [beq_iff_eq]
    omega
  rw [Cell.liveAt, hsplit, List.find?_append, hfront]
  simp

theorem Classified.filter_from (h : Classified row) (hsplit : row.cells = front ++ c :: back) :
    row.cells.filter (fun d => d.isLive && c.offset ≤ d.offset) = (c :: back).filter Cell.isLive := by
  have hfront : front.filter (fun d => d.isLive && c.offset ≤ d.offset) = [] := by
    rw [List.filter_eq_nil_iff]
    intro d hd
    have := h.offset_lt hsplit hd
    simp only [Bool.and_eq_true, decide_eq_true_eq]
    omega
  rw [hsplit, List.filter_append, hfront, List.nil_append]
  refine List.filter_congr fun d hd => ?_
  rw [decide_eq_true (h.offset_le hsplit hd), Bool.and_true]

theorem Classified.sliceFrom (h : Classified row) (hsplit : row.cells = front ++ back) :
    sliceFrom row.text (Utf8.byteLength (textOf front)) = pure (textOf back) := by
  rw [h.split hsplit, sliceFrom_append]

theorem Classified.sliceTo (h : Classified row) (hsplit : row.cells = front ++ back) :
    sliceTo row.text (Utf8.byteLength (textOf front)) = pure (textOf front) := by
  rw [h.split hsplit, sliceTo_append]

theorem trimmedCode_eq (h : Classified row) : trimmedCode row = pure (Cell.codeText row.cells) := by
  have hfind := row.cells.reverse.find?_eq_head?_dropWhile_not fun c => c.isLive && !isBlank c.char
  have hsplit : row.cells = (row.cells.reverse.dropWhile fun c => !(c.isLive && !isBlank c.char)).reverse ++
      (row.cells.reverse.takeWhile fun c => !(c.isLive && !isBlank c.char)).reverse := by
    rw [← List.reverse_append, List.takeWhile_append_dropWhile, List.reverse_reverse]
  rw [trimmedCode, Cell.codeText, hfind]
  cases hdrop : row.cells.reverse.dropWhile fun c => !(c.isLive && !isBlank c.char) with
  | nil =>
    have hzero : sliceTo row.text 0 = pure [] := sliceTo_append [] row.text
    simp only [List.head?_nil, hzero, pure_bind, List.reverse_nil, List.map_nil]
  | cons c behind =>
    have hslice := h.sliceTo hsplit
    rw [hdrop, List.reverse_cons] at hslice hsplit
    rw [List.append_assoc] at hsplit
    have hstop : Utf8.byteLength (textOf (behind.reverse ++ [c])) = c.offset + c.char.utf8Size := by
      rw [h.offset hsplit, textOf, List.map_append, Utf8.byteLength_append]
      rfl
    rw [hstop] at hslice
    simp only [List.head?_cons, hslice, pure_bind, List.reverse_cons, textOf]

/-! ## The keyword of a statement -/

theorem spells_use (c : Cell) (back : List Cell) :
    ['u', 's', 'e'].isPrefixOf (textOf (c :: back)) = true ↔
      ∃ s e rest, back = s :: e :: rest ∧ c.char = 'u' ∧ s.char = 's' ∧ e.char = 'e' := by
  rcases back with _ | ⟨s, _ | ⟨e, rest⟩⟩ <;>
    simp [textOf, List.isPrefixOf, eq_comm (a := 'u'), eq_comm (a := 's'), eq_comm (a := 'e'), and_assoc]

theorem startsUseAt_eq (h : Classified row) (hsplit : row.cells = front ++ c :: back)
    (hlive : c.isLive = true) :
    startsUseAt row c = pure (Cell.startsUse (front.getLast?.map (·.char)) (c :: back)) := by
  have hoffset := h.offset hsplit
  have hfront : sliceTo row.text c.offset = pure (textOf front) := hoffset ▸ h.sliceTo hsplit
  have hback : sliceFrom row.text c.offset = pure (textOf (c :: back)) := hoffset ▸ h.sliceFrom hsplit
  rw [startsUseAt, hback, hfront]
  by_cases huse : ['u', 's', 'e'].isPrefixOf (textOf (c :: back)) = true
  · obtain ⟨s, e, rest, rfl, hu, hs, he⟩ := (spells_use c back).1 huse
    have hbefore : row.cells = (front ++ [c, s]) ++ e :: rest := by simp [hsplit]
    have hafter : row.cells = (front ++ [c, s, e]) ++ rest := by simp [hsplit]
    have hlength : Utf8.byteLength (textOf (front ++ [c, s, e])) = c.offset + 3 := by
      rw [textOf, List.map_append, Utf8.byteLength_append, ← textOf, ← hoffset]
      simp [Utf8.byteLength, hu, hs, he, Char.utf8Size]
    have hend : c.offset + 3 - 1 = e.offset := by
      rw [h.offset hbefore, ← hlength]
      simp [textOf, Utf8.byteLength_append, Utf8.byteLength, hu, hs, he, Char.utf8Size]
    have hslice : sliceFrom row.text (c.offset + 3) = pure (textOf rest) := hlength ▸ h.sliceFrom hafter
    have hlast : (textOf front).getLast? = front.getLast?.map (·.char) := List.getLast?_map
    have hif : ∀ a b : Bool, (if a then pure b else pure false : Checked Bool) = pure (b && a) := by
      decide
    simp only [pure_bind, huse, hslice, minus_eq (Nat.le_add_left 1 (c.offset + 2)), hend,
      h.liveAt hbefore, hlast, hu, if_true, hif]
    cases rest <;> simp [Cell.startsUse, textOf, hlive, hu, hs, he, Bool.and_assoc]
  · have hnot : Cell.startsUse (front.getLast?.map (·.char)) (c :: back) = false := by
      rw [Bool.eq_false_iff]
      intro hstarts
      obtain ⟨u, s, e, rest, hcells, hu, hs, he, -⟩ := (Cell.startsUse_iff _ _).1 hstarts
      obtain ⟨rfl, rfl⟩ := List.cons.inj hcells
      exact huse ((spells_use c _).2 ⟨s, e, rest, rfl, hu, hs, he⟩)
    rw [pure_bind, if_neg huse, hnot, ite_self]

theorem useOffset?_eq (h : Classified row) (front : List Cell) (hsplit : row.cells = front ++ back) :
    useOffset? row back =
      pure ((Cell.fromUse? (front.getLast?.map (·.char)) back).bind fun cells =>
        cells.head?.map (·.offset)) := by
  induction back generalizing front with
  | nil => rfl
  | cons c back ih =>
    have hmore := ih (front ++ [c]) (by simp [hsplit])
    rw [List.getLast?_concat, Option.map_some] at hmore
    rw [useOffset?, Cell.fromUse?]
    cases hlive : c.isLive with
    | false =>
      have hnot : Cell.startsUse (front.getLast?.map (·.char)) (c :: back) = false := by
        rw [Bool.eq_false_iff]
        intro hstarts
        obtain ⟨u, s, e, rest, hcells, -, -, -, hu, -⟩ := (Cell.startsUse_iff _ _).1 hstarts
        obtain ⟨rfl, -⟩ := List.cons.inj hcells
        simp [hlive] at hu
      rw [if_neg Bool.false_ne_true, hnot, if_neg Bool.false_ne_true, hmore]
    | true =>
      rw [if_pos rfl, startsUseAt_eq h hsplit hlive, pure_bind]
      split
      · rfl
      · exact hmore

/-! ## Statements -/

def depthOf : ImportSearch → Int
  | .between _ => 0
  | .within _ depth => depth.toInt

def Collector.ofSearch : ImportSearch → Collector
  | .between attributes => ⟨none, attributes⟩
  | .within first depth => ⟨some (first, depth.toInt), 0⟩

/-- A depth that its word can hold is counted without a fault. -/
theorem consume_eq {d : Int32} {cells : List Cell} (hlow : 0 ≤ d.toInt)
    (h : d.toInt + (textOf cells).count '{' < 2147483648) :
    consume d.toInt (cells.filter Cell.isLive) =
      pure ((Cell.statementDepth d cells).map Int32.toInt) := by
  induction cells generalizing d with
  | nil => rfl
  | cons c cells ih =>
    rw [textOf, List.map_cons, List.count_cons, ← textOf] at h
    rw [Cell.statementDepth.eq_def, List.filter_cons]
    dsimp only
    by_cases hlive : c.isLive = true
    · rw [if_pos hlive, if_neg (by simp [hlive]), consume]
      by_cases hopen : c.char = '{'
      · rw [if_pos (by simpa using hopen)] at h
        have hnext : (d + 1).toInt = d.toInt + 1 := toInt_add_one (by omega)
        rw [if_pos hopen, if_pos hopen, word_eq (by omega) (by omega), pure_bind, ← hnext]
        exact ih (by omega) (by omega)
      rw [if_neg hopen, if_neg hopen]
      by_cases hclose : c.char = '}'
      · have hless : (d - 1).toInt = d.toInt - 1 := toInt_sub_one hlow
        rw [if_pos hclose, if_pos hclose, word_eq (by omega) (by omega), pure_bind, ← hless]
        by_cases hzero : d.toInt = 0
        · rw [if_pos (by omega), if_pos ((sub_one_neg_iff hlow).2 hzero)]
          rfl
        · rw [if_neg (by omega), if_neg (mt (sub_one_neg_iff hlow).1 hzero)]
          exact ih (by omega) (by omega)
      rw [if_neg hclose, if_neg hclose]
      by_cases hend : c.char = ';' ∧ d = 0
      · rw [if_pos hend, if_pos (by rwa [← eq_zero_iff_toInt])]
        rfl
      · rw [if_neg hend, if_neg (by rwa [← eq_zero_iff_toInt])]
        exact ih hlow (by omega)
    · rw [if_neg hlive, if_pos (by simpa using hlive)]
      exact ih hlow (by omega)

theorem statementDepth_bounds {d e : Int32} {cells : List Cell} (hlow : 0 ≤ d.toInt)
    (hhigh : d.toInt + (textOf cells).count '{' < 2147483648)
    (h : Cell.statementDepth d cells = some e) :
    0 ≤ e.toInt ∧ e.toInt ≤ d.toInt + (textOf cells).count '{' := by
  induction cells generalizing d with
  | nil =>
    obtain rfl := Option.some.inj h
    exact ⟨hlow, by omega⟩
  | cons c cells ih =>
    rw [textOf, List.map_cons, List.count_cons, ← textOf] at hhigh ⊢
    rw [Cell.statementDepth.eq_def] at h
    dsimp only at h
    split at h
    · have := ih hlow (by omega) h
      omega
    split at h
    · rename_i hopen
      rw [if_pos (by simpa using hopen)] at hhigh ⊢
      have hnext : (d + 1).toInt = d.toInt + 1 := toInt_add_one (by omega)
      have := ih (by omega) (by omega) h
      omega
    split at h
    · split at h
      · simp at h
      · rename_i hpos
        have hless : (d - 1).toInt = d.toInt - 1 := toInt_sub_one hlow
        rw [sub_one_neg_iff hlow] at hpos
        have := ih (by omega) (by omega) h
        omega
    split at h
    · simp at h
    · have := ih hlow (by omega) h
      omega

/-- A line changes the collector as it changes the search, and adds no more than its braces to the
depth. -/
theorem Collector.step_eq (h : Classified row) {n : Nat} {s : ImportSearch}
    (hback : ∀ attributes, s = .between attributes → attributes < n) (hlow : 0 ≤ depthOf s)
    (hdepth : depthOf s + row.text.count '{' < 2147483648) :
    (ofSearch s).step n row = pure (ofSearch (s.step n row).1, (s.step n row).2) ∧
      0 ≤ depthOf (s.step n row).1 ∧
      depthOf (s.step n row).1 ≤ depthOf s + row.text.count '{' := by
  have hended : 0 ≤ depthOf s + row.text.count '{' := by omega
  cases s with
  | within first depth =>
    rw [← h.text] at hdepth hended ⊢
    rw [depthOf] at hlow hdepth
    have hconsume := consume_eq hlow hdepth
    simp only [ofSearch, step, ImportSearch.step, hconsume, pure_bind]
    cases hend : Cell.statementDepth depth row.cells with
    | none => exact ⟨rfl, Int.le_refl 0, hended⟩
    | some d => exact ⟨rfl, statementDepth_bounds hlow hdepth hend⟩
  | between attributes =>
    have huse := useOffset?_eq h [] (List.nil_append row.cells).symm
    simp only [ofSearch, step, ImportSearch.step, huse, pure_bind, List.getLast?_nil, Option.map_none]
    cases hfrom : Cell.fromUse? none row.cells with
    | none => exact ⟨rfl, Int.le_refl 0, hended⟩
    | some back =>
      obtain ⟨front, hsplit, ⟨u, s, e, rest, rfl, -⟩, -⟩ := Cell.fromUse?_spec hfrom
      have hcount : (textOf (u :: s :: e :: rest)).count '{' ≤ row.text.count '{' := by
        rw [h.split hsplit, List.count_append]
        exact Nat.le_add_left _ _
      rw [depthOf] at hdepth
      have hbraces : (0 : Int32).toInt + (textOf (u :: s :: e :: rest)).count '{' < 2147483648 := by
        rw [Int32.toInt_zero]
        omega
      have hstart : 0 ≤ (0 : Int32).toInt := Int.le_refl 0
      have hconsume : consume 0 ((u :: s :: e :: rest).filter Cell.isLive) = _ :=
        consume_eq hstart hbraces
      simp only [Option.bind_some, List.head?_cons, Option.map_some]
      rw [minus_eq (Nat.le_of_lt (hback attributes rfl)), pure_bind, h.filter_from hsplit, hconsume,
        pure_bind]
      cases hend : Cell.statementDepth 0 (u :: s :: e :: rest) with
      | none => exact ⟨rfl, Int.le_refl 0, hended⟩
      | some d =>
        have hbounds := statementDepth_bounds hstart hbraces hend
        rw [Int32.toInt_zero] at hbounds
        refine ⟨rfl, ?_⟩
        dsimp only [depthOf]
        omega

theorem spansFrom_eq {last n : Nat} {s : ImportSearch} (carry : Carry) (lines : List (List Char))
    (hn : n + lines.length = last + 1)
    (hback : ∀ attributes, s = .between attributes → attributes < n) (hlow : 0 ≤ depthOf s)
    (hdepth : depthOf s + lines.flatten.count '{' < 2147483648) :
    spansFrom last n (.ofSearch s) carry lines = pure (s.spans n (Row.ofLines carry lines)) := by
  induction lines generalizing n s carry with
  | nil =>
    obtain rfl : last = n - 1 := by simpa using (Nat.sub_eq_of_eq_add hn).symm
    cases s <;> rfl
  | cons line rest ih =>
    rw [List.flatten_cons, List.count_append] at hdepth
    have hrow : Classified ⟨line, carry, (CodeFolding.classify carry line).1⟩ := rfl
    obtain ⟨hstep, hge, hle⟩ := Collector.step_eq hrow hback hlow (by dsimp only; omega)
    have hrest := ih (n := n + 1) (s := (s.step n ⟨line, carry, (CodeFolding.classify carry line).1⟩).1)
      (CodeFolding.classify carry line).2 (by rw [List.length_cons] at hn; omega)
      (fun attributes => ImportSearch.attributes_le _ (Nat.le_add_left 1 n) hback) hge
      (by dsimp only at hle; omega)
    rw [spansFrom, classify_eq, pure_bind]
    dsimp only
    rw [hstep, pure_bind]
    dsimp only
    rw [hrest, pure_bind]
    rfl

/-! ## Blocks -/

theorem endLine_eq (h : Classified row) (n : Nat) (s : Nesting) :
    endLine n row s = pure (s.endLine n row) := by
  rw [endLine, Nesting.endLine]
  cases hwaiting : s.waiting with
  | none => rfl
  | some k =>
    dsimp only
    rw [trimmedCode_eq h, pure_bind]
    by_cases hline : k.line = n
    · cases Cell.hasLive row.cells '{' <;> cases continuesSignature (Cell.codeText row.cells) <;>
        simp [hline]
    · simp [hline]

theorem blocksFrom_eq {policy : Policy} {last n : Nat} {table : List Bool} {spans : List Span}
    (htable : Table last table (ownsLine spans)) {s : Nesting} {carry : Carry}
    {lines : List (List Char)} (hn : n + lines.length = last + 1) :
    blocksFrom policy table n s carry lines =
      pure (s.blocks policy spans n (Row.ofLines carry lines)) := by
  induction lines generalizing n s carry with
  | nil => rfl
  | cons line rest ih =>
    rw [List.length_cons] at hn
    have howned := htable.get n (by omega)
    rw [blocksFrom, classify_eq, pure_bind]
    dsimp only
    rw [howned, endLine_eq (by rfl), pure_bind, ih (by omega), pure_bind]
    rfl

/-! ## No fault -/

theorem count_splitLines {c : Char} (hn : c ≠ '\n') (hr : c ≠ '\r') (text : List Char) :
    (CodeFolding.splitLines text).flatten.count c = text.count c := by
  fun_induction CodeFolding.splitLines text with
  | case1 => rfl
  | case2 rest ih => simp [ih, Ne.symm hn, Ne.symm hr]
  | case3 rest ih => simp [ih, Ne.symm hn]
  | case4 rest _ ih => simp [ih, Ne.symm hr]
  | case5 d rest _ _ _ ih =>
    cases hlines : CodeFolding.splitLines rest with
    | nil => exact absurd hlines (splitLines_ne_nil rest)
    | cons first more =>
      rw [hlines] at ih
      simp only [consFirst, List.flatten_cons, List.cons_append, List.count_cons]
      rw [← List.flatten_cons, ih]

theorem identify_eq (policy : Policy) {source : List Char} (h : source.count '{' < 2147483648) :
    identify policy source = pure (CodeFolding.identify policy source) := by
  have hcount := count_splitLines (c := '{') (by decide) (by decide) source
  have hspans := spansFrom_eq (n := 1) (s := .between 0) .neutral (CodeFolding.splitLines source)
    (Nat.add_comm _ _) (by simp) (Int.le_refl 0) (by rw [hcount, depthOf]; omega)
  have hblocks : ∀ {table : List Bool} {spans : List Span},
      Table (CodeFolding.splitLines source).length table (ownsLine spans) →
      blocksFrom policy table 1 .empty .neutral (CodeFolding.splitLines source) =
        pure (blockRegions policy spans (rowsOf source)) :=
    fun htable => blocksFrom_eq htable (Nat.add_comm _ _)
  obtain ⟨table, htable, howned⟩ := lineTable_eq (CodeFolding.splitLines source).length
    (importSpans (rowsOf source))
  rw [identify, splitLines_eq, pure_bind]
  have hspans' : spansFrom (CodeFolding.splitLines source).length 1 ⟨none, 0⟩ .neutral
      (CodeFolding.splitLines source) = pure (importSpans (rowsOf source)) := hspans
  rw [hspans', pure_bind, htable, pure_bind, hblocks howned, pure_bind]
  rfl

theorem view_eq (style : Style) (source : List Char) (regions : List Region) :
    view style source regions =
      pure (View.render style source regions, View.hidden source regions) := by
  rw [view, splitLines_eq, pure_bind]
  rfl

/-- Regions are found, toggled and shown without a fault, and what is found and shown is what the
definitions without positions say. -/
theorem no_fault (policy : Policy) (style : Style) (source : List Char) (toggles : List Nat)
    (hbraces : source.countP (fun c => c == '{' || c == '}') < 2147483648) :
    identify policy source = .ok (CodeFolding.identify policy source) ∧
      let regions := (Region.toggleAll (CodeFolding.identify policy source) toggles).1
      toggledView style policy source toggles =
        .ok (View.render style source regions, View.hidden source regions) := by
  have hopen : source.count '{' < 2147483648 := by
    refine Nat.lt_of_le_of_lt (List.countP_mono_left fun c _ hc => ?_) hbraces
    simp_all
  refine ⟨identify_eq policy hopen, ?_⟩
  intro regions
  rw [toggledView, identify_eq policy hopen, pure_bind, view_eq]
  rfl

/-- An attribute, letters of two bytes, braces in an import and in a raw literal, and three kinds of
line ends. -/
theorem no_fault_in_accented_text :
    let source := "#[é]\r\nuse é::\x7ba, b\x7d;\rfn ü() \x7b // é\nr#\"é\x7b\"#;\n\x7d\n".toList
    let found := [Region.ofImports [⟨1, 2⟩] true, .block .fn 3 5 3 0 true]
    source.countP (fun c => c == '{' || c == '}') < 2147483648 ∧
      identify .standard source = .ok found ∧
      toggledView .plain .standard source [3] = .ok (View.render .plain source
        (Region.toggleAll found [3]).1, View.hidden source (Region.toggleAll found [3]).1) := by
  intro source found
  have hbraces : source.countP (fun c => c == '{' || c == '}') < 2147483648 := by decide +kernel
  have hspans : importSpans (rowsOf source) = [⟨1, 2⟩] := by decide +kernel
  have hblocks : blockRegions .standard [⟨1, 2⟩] (rowsOf source) = [.block .fn 3 5 3 0 true] := by
    decide +kernel
  have hfound : CodeFolding.identify .standard source = found := by
    rw [CodeFolding.identify, hspans, hblocks]
    exact List.mergeSort_of_pairwise (by decide)
  have hrun := no_fault .standard .plain source [3] hbraces
  rw [hfound] at hrun
  exact ⟨hbraces, hrun⟩

end CodeFolding.Checked
