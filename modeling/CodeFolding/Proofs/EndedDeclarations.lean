import CodeFolding.Proofs.Interior
import CodeFolding.Proofs.RegionList

/-!
Declarations that end without a body.

A declaration ends at a `;` outside its parentheses and brackets, or at a `}`, when these come
before a brace opens its body. The scan does not look for that end. It gives a keyword up when the
keyword's own line neither has a brace nor goes on as a signature, and when another declaration
comes before the next brace; an ended declaration that is not given up takes the next brace.
-/

set_option autoImplicit false

namespace CodeFolding

/-- How many more parentheses and brackets a text opens than it closes. -/
def bracketDepth (w : List Char) : Int :=
  (w.count '(' : Int) + w.count '[' - w.count ')' - w.count ']'

/-- The live text from place `p` to place `t` on lines of no import. -/
def freeText (rows : List Row) (spans : List Span) (p t : Nat) : List Char :=
  ((((places rows).take t).drop p).filter fun q => !ownsLine spans q.line).map (·.char)

/-- The keyword of line `k` is code and begins at place `p`. -/
def KeywordAt (rows : List Row) (k p : Nat) : Prop :=
  ∃ row offset kind front c back, Row.at? rows k = some row ∧
    Declaration.find? row.text = some (offset, kind) ∧ row.cells = front ++ c :: back ∧
    c.offset = offset ∧ (∀ d ∈ front, d.offset ≠ offset) ∧ c.isLive = true ∧
    p = (placesFrom 1 (rows.take (k - 1))).length + (Cell.live front).length

/-- The end, at place `t`, of a declaration whose keyword begins at place `p` and whose body has not
begun. -/
structure EndsAt (rows : List Row) (spans : List Span) (p t : Nat) : Prop where
  behind : p < t
  ends : ∃ l c, (places rows)[t]? = some ⟨l, c⟩ ∧ ownsLine spans l = false ∧
    (c = '}' ∨ c = ';' ∧ bracketDepth (freeText rows spans p t) = 0)

/-- No end of the declaration comes between the keyword of a region and its opening brace. -/
def BodyFollows (rows : List Row) (spans : List Span) (r : Region) : Prop :=
  ∃ p o c, KeywordAt rows r.first p ∧ Encloses rows spans r.first r.kind o c r.brace r.last ∧
    ∀ t < o, ¬ EndsAt rows spans p t

/-- The declaration of line `k` ends at place `t`, and no brace came before. -/
structure Bodiless (rows : List Row) (spans : List Span) (k p t : Nat) : Prop where
  candidate : ∃ kind, Candidate rows spans k kind
  keyword : KeywordAt rows k p
  ends : EndsAt rows spans p t
  bare : ∀ i < t, ∀ l, (places rows)[i]? = some ⟨l, '{'⟩ → k ≤ l → ownsLine spans l = true

/-- Place `t` is the last on line `k` that is not blank. -/
def EndsLine (rows : List Row) (k t : Nat) : Prop :=
  (∃ c, (places rows)[t]? = some ⟨k, c⟩) ∧
    ∀ i, t < i → ∀ d, (places rows)[i]? = some ⟨k, d⟩ → isBlank d = true

/-- The first brace behind place `t` on a line of no import is at `o`, on line `b`. -/
structure NextBrace (rows : List Row) (spans : List Span) (t o b : Nat) : Prop where
  behind : t < o
  brace : (places rows)[o]? = some ⟨b, '{'⟩
  free : ownsLine spans b = false
  first : ∀ i, t < i → i < o → ∀ l, (places rows)[i]? = some ⟨l, '{'⟩ → ownsLine spans l = true

section

variable {policy : Policy} {rows : List Row} {spans : List Span}

theorem KeywordAt.place {k p : Nat} (h : KeywordAt rows k p) :
    ∃ c, (places rows)[p]? = some ⟨k, c⟩ := by
  obtain ⟨row, offset, kind, front, c, back, hrow, -, hcells, -, -, hlive, rfl⟩ := h
  have hchars : Nesting.liveChars row = Cell.live front ++ c.char :: Cell.live back := by
    simp [Nesting.liveChars, Cell.live, hcells, hlive]
  exact ⟨c.char, (place_iff hrow).2 ⟨_, rfl, by simp [hchars]⟩⟩

theorem front_eq_takeWhile {cells front back : List Cell} {c : Cell} {offset : Nat}
    (hcells : cells = front ++ c :: back) (hc : c.offset = offset)
    (hfront : ∀ d ∈ front, d.offset ≠ offset) :
    front = cells.takeWhile fun d => d.offset != offset := by
  rw [hcells, List.takeWhile_append_of_pos (by simpa using hfront)]
  simp [hc]

theorem KeywordAt.unique {k p p' : Nat} (h : KeywordAt rows k p) (h' : KeywordAt rows k p') :
    p = p' := by
  obtain ⟨row, offset, kind, front, c, back, hrow, hfind, hcells, hc, hfront, -, rfl⟩ := h
  obtain ⟨row', offset', kind', front', c', back', hrow', hfind', hcells', hc', hfront', -, rfl⟩ :=
    h'
  rw [hrow] at hrow'
  obtain rfl := Option.some.inj hrow'
  rw [hfind, Option.some.injEq, Prod.mk.injEq] at hfind'
  obtain ⟨rfl, rfl⟩ := hfind'
  rw [front_eq_takeWhile hcells hc hfront, front_eq_takeWhile hcells' hc' hfront']

theorem Candidate.keywordAt {k : Nat} {kind : Kind} (h : Candidate rows spans k kind) :
    ∃ p, KeywordAt rows k p := by
  obtain ⟨row, offset, hrow, -, -, hfind, hlive⟩ := h
  unfold Cell.liveAt at hlive
  split at hlive
  · rename_i c hc
    obtain ⟨hoffset, front, back, hcells, hfront⟩ := List.find?_eq_some_iff_append.1 hc
    exact ⟨_, row, offset, kind, front, c, back, hrow, hfind, hcells, by simpa using hoffset,
      by simpa using hfront, hlive, rfl⟩
  · simp at hlive

theorem EndsAt.place_ne_brace {p t l : Nat} (h : EndsAt rows spans p t) :
    (places rows)[t]? ≠ some ⟨l, '{'⟩ := by
  obtain ⟨l', c, hplace, -, hc⟩ := h.ends
  rw [hplace]
  intro hbrace
  obtain ⟨-, rfl⟩ := Place.mk.inj (Option.some.inj hbrace)
  simp at hc

/-- A declaration that ends without a body and is not given up anchors the next brace. -/
theorem Bodiless.anchors {k p t o b : Nat} (h : Bodiless rows spans k p t)
    (hnext : NextBrace rows spans t o b) (hreach : b = k ∨ GoesOn rows k)
    (hlast : ∀ m, k < m → m ≤ b → ∀ kind, ¬ Candidate rows spans m kind) :
    ∃ kind, Anchors rows spans k kind o b := by
  obtain ⟨kind, hcand⟩ := h.candidate
  obtain ⟨c, hkeyword⟩ := h.keyword.place
  have hafter : k ≤ b := line_le_line hkeyword hnext.brace (Nat.lt_trans h.ends.behind hnext.behind)
  refine ⟨kind, hcand, hnext.brace, hafter, hnext.free, fun i hi l hl hkl => ?_, hreach, hlast⟩
  rcases Nat.lt_trichotomy i t with hlt | rfl | hgt
  · exact h.bare i hlt l hl hkl
  · exact absurd hl h.ends.place_ne_brace
  · exact hnext.first i hgt hi l hl

/-- If a declaration ends before the brace that it anchors, that brace is the next one. -/
theorem Anchors.bodiless {k p t o b : Nat} {kind : Kind} (h : Anchors rows spans k kind o b)
    (hkeyword : KeywordAt rows k p) (hends : EndsAt rows spans p t) (hto : t < o) :
    Bodiless rows spans k p t ∧ NextBrace rows spans t o b := by
  obtain ⟨c, hplace⟩ := hkeyword.place
  refine ⟨⟨⟨kind, h.candidate⟩, hkeyword, hends, fun i hi l hl hkl => ?_⟩,
    hto, h.brace, h.free, fun i hti hio l hl => ?_⟩
  · exact h.first i (by omega) l hl hkl
  · exact h.first i hio l hl (line_le_line hplace hl (Nat.lt_trans hends.behind hti))

theorem exists_cell_of_live {cells : List Cell} {u v : List Char} {c : Char}
    (h : Cell.live cells = u ++ c :: v) : ∃ front x back, cells = front ++ x :: back ∧
      x.isLive = true ∧ x.char = c ∧ Cell.live back = v := by
  obtain ⟨fs, gs, hfilter, -, hgs⟩ := List.map_eq_append_iff.1 h
  obtain ⟨x, bs, rfl, hx, hbs⟩ := List.map_eq_cons_iff.1 hgs
  obtain ⟨front, rest, rfl, -, hrest⟩ := List.filter_eq_append_iff.1 hfilter
  obtain ⟨dead, back, rfl, -, hlive, hback⟩ := List.filter_eq_cons_iff.1 hrest
  exact ⟨front ++ dead, x, back, by simp, hlive, hx, by rw [Cell.live, hback, hbs]⟩

/-- The code of a line ends in its last live character that is not blank. -/
theorem codeText_of_live {cells : List Cell} {u v : List Char} {c : Char}
    (h : Cell.live cells = u ++ c :: v) (hc : isBlank c = false)
    (hv : ∀ d ∈ v, isBlank d = true) : ∃ front, Cell.codeText cells = trimStart (front ++ [c]) := by
  obtain ⟨front, x, back, rfl, hlive, rfl, hback⟩ := exists_cell_of_live h
  have hskip : ∀ d ∈ back.reverse, (!(d.isLive && !isBlank d.char)) = true := by
    intro d hd
    cases hl : d.isLive with
    | false => rfl
    | true =>
      have hblank := hv d.char (by
        rw [← hback]
        exact List.mem_map.2 ⟨d, List.mem_filter.2 ⟨List.mem_reverse.1 hd, hl⟩, rfl⟩)
      simp [hblank]
  refine ⟨front.map (·.char), ?_⟩
  simp only [Cell.codeText, List.reverse_append, List.reverse_cons, List.append_assoc]
  rw [List.dropWhile_append_of_pos hskip]
  simp [hlive, hc]

theorem not_continuesSignature {c : Char} (hc : c = ';' ∨ c = '}') (front : List Char) :
    continuesSignature (front ++ [c]) = false := by
  have hends : ∀ e ∈ signatureEnds, ∃ d w, e.toList.reverse = d :: w ∧ d ≠ ';' ∧ d ≠ '}' := by
    intro e he
    simp only [signatureEnds, List.mem_cons, List.not_mem_nil, or_false] at he
    rcases he with rfl | rfl | rfl | rfl | rfl | rfl <;> exact ⟨_, _, rfl, by decide, by decide⟩
  rw [continuesSignature, List.any_eq_false]
  intro e he hsuffix
  obtain ⟨d, w, hd, hsemi, hbrace⟩ := hends e he
  rw [List.isSuffixOf_iff_suffix, ← List.reverse_prefix, hd, List.reverse_concat,
    List.cons_prefix_cons] at hsuffix
  rcases hc with rfl | rfl
  · exact hsemi hsuffix.1
  · exact hbrace hsuffix.1

theorem EndsLine.live {k t : Nat} {c : Char} (h : EndsLine rows k t)
    (ht : (places rows)[t]? = some ⟨k, c⟩) : ∃ row u v, Row.at? rows k = some row ∧
      Cell.live row.cells = u ++ c :: v ∧ ∀ d ∈ v, isBlank d = true := by
  obtain ⟨row, hrow, -⟩ := row_of_place ht
  obtain ⟨j, rfl, hj⟩ := (place_iff hrow).1 ht
  obtain ⟨hlt, hget⟩ := List.getElem?_eq_some_iff.1 hj
  refine ⟨row, (Nesting.liveChars row).take j, (Nesting.liveChars row).drop (j + 1), hrow, ?_, ?_⟩
  · rw [← hget, List.cons_getElem_drop_succ, List.take_append_drop]
    rfl
  · intro d hd
    obtain ⟨m, hm⟩ := List.mem_iff_getElem?.1 hd
    rw [List.getElem?_drop] at hm
    exact h.2 _ (by omega) d ((place_iff hrow).2 ⟨j + 1 + m, rfl, hm⟩)

/-- A declaration that ends with the code of its own line is given up there. -/
theorem Bodiless.given_up {k p t o b : Nat} (h : Bodiless rows spans k p t)
    (hline : EndsLine rows k t) (hnext : NextBrace rows spans t o b) :
    b ≠ k ∧ ¬ GoesOn rows k := by
  obtain ⟨l, c, hplace, -, hc⟩ := h.ends.ends
  obtain ⟨⟨c', hplace'⟩, hblank⟩ := id hline
  obtain ⟨rfl, rfl⟩ := Place.mk.inj (Option.some.inj (hplace.symm.trans hplace'))
  constructor
  · rintro rfl
    have := hblank o hnext.behind '{' hnext.brace
    revert this
    decide
  · intro hgoes
    obtain ⟨row, hrow, hcontinues⟩ := hgoes
    obtain ⟨row', u, v, hrow', hlive, hv⟩ := hline.live hplace
    rw [hrow] at hrow'
    obtain rfl := Option.some.inj hrow'
    have hnot : isBlank c = false := by rcases hc with rfl | ⟨rfl, -⟩ <;> decide
    obtain ⟨front, htext⟩ := codeText_of_live hlive hnot hv
    rw [htext, continuesSignature_trimStart,
      not_continuesSignature (hc.elim .inr fun hsemi => .inl hsemi.1)] at hcontinues
    simp at hcontinues

end

/-- Every region of a text has its body before an end of its declaration, exactly if each
declaration that ends without a body passes the next brace by: the scan has given it up at the end
of its line, or goes on to another declaration, or the brace is not closed on a later line. A
declaration that ends with the code of its own line is given up. -/
theorem bodies_follow_iff (policy : Policy) (source : List Char) :
    let rows := rowsOf source
    let spans := importSpans rows
    ((∀ r ∈ identify policy source, r.isImports = false → BodyFollows rows spans r) ↔
      ∀ k p t o b, Bodiless rows spans k p t → NextBrace rows spans t o b →
        (b ≠ k ∧ ¬ GoesOn rows k) ∨
        (∃ m kind, k < m ∧ m ≤ b ∧ Candidate rows spans m kind) ∨
        ∀ c e, Partner (liveText rows) o c → (places rows)[c]? = some ⟨e, '}'⟩ → e ≤ b) ∧
    ∀ k p t o b, Bodiless rows spans k p t → NextBrace rows spans t o b → EndsLine rows k t →
      b ≠ k ∧ ¬ GoesOn rows k := by
  intro rows spans
  refine ⟨⟨fun h k p t o b hend hnext => ?_, fun h r hr himports => ?_⟩,
    fun k p t o b hend hnext hline => hend.given_up hline hnext⟩
  · by_contra hgiven
    simp only [not_or, not_and, not_not, not_exists, not_forall, Nat.not_le] at hgiven
    obtain ⟨hreach, hlast, c, e, hpartner, hclose, hlater⟩ := hgiven
    obtain ⟨kind, hanchors⟩ := hend.anchors hnext (Classical.or_iff_not_imp_left.2 hreach)
      (fun m hkm hmb kind' => hlast m kind' hkm hmb)
    have henc : Encloses rows spans k kind o c b e := ⟨hanchors, hpartner, hclose, hlater⟩
    have hblock : .block kind k e b _ (policy.folds kind) ∈ blockRegions policy spans rows :=
      (mem_blockRegions _).2 ⟨c, k, kind, o, b, e, henc, rfl⟩
    obtain ⟨p', o', c', hkeyword, henc', hfree⟩ :=
      h _ (mem_identify.2 (.inr hblock)) (henc.not_imports _ _)
    obtain rfl : p = p' := hend.keyword.unique hkeyword
    obtain rfl : o = o' := hanchors.brace_eq henc'.anchors
    exact hfree t hnext.behind hend.ends
  · obtain ⟨c, k, kind, o, b, e, henc, rfl⟩ :=
      (mem_blockRegions r).1 (block_of_mem_identify hr himports)
    obtain ⟨p, hkeyword⟩ := henc.anchors.candidate.keywordAt
    refine ⟨p, o, c, hkeyword, henc, fun t hto hends => ?_⟩
    obtain ⟨hend, hnext⟩ := henc.anchors.bodiless hkeyword hends hto
    rcases h k p t o b hend hnext with ⟨hbk, hgoes⟩ | ⟨m, kind', hkm, hmb, hcand⟩ | hshut
    · exact hgoes (henc.anchors.reach.resolve_left hbk)
    · exact henc.anchors.last m hkm hmb kind' hcand
    · have hle := hshut c e henc.partner henc.close
      have hlater := henc.later
      omega

/-- A tuple structure over two lines, and a constant. -/
def tupleThenConstant : List Char :=
  "struct A(\n    u8);\nconst X: u8 = \x7b\n    1\n\x7d;\n".toList

/-- The structure has ended, and takes the braces of the constant. -/
theorem ended_declaration_anchors :
    identify .standard tupleThenConstant = [.block .struct 1 5 3 0 true] ∧
      ¬ BodyFollows (rowsOf tupleThenConstant) (importSpans (rowsOf tupleThenConstant))
        (.block .struct 1 5 3 0 true) := by
  have hspans : importSpans (rowsOf tupleThenConstant) = [] := by decide
  have hblocks : blockRegions .standard [] (rowsOf tupleThenConstant) =
      [.block .struct 1 5 3 0 true] := by decide
  refine ⟨by simp [identify, hspans, hblocks, importRegion?], fun hgiven => ?_⟩
  rw [hspans] at hgiven
  obtain ⟨p, o, c, hkeyword, henc, hfree⟩ := hgiven
  have hstart : KeywordAt (rowsOf tupleThenConstant) 1 0 :=
    ⟨_, 0, .struct, [], ⟨0, 's', .code⟩, _, rfl, by decide, rfl, rfl, by simp, rfl, rfl⟩
  obtain rfl := hstart.unique hkeyword
  have hends : EndsAt (rowsOf tupleThenConstant) [] 0 16 :=
    ⟨by decide, 2, ';', by decide, rfl, .inr ⟨rfl, by decide⟩⟩
  refine hfree 16 ?_ hends
  by_contra hle
  have hbefore : ∀ i < 17, (places (rowsOf tupleThenConstant))[i]? ≠ some ⟨3, '{'⟩ := by decide
  exact hbefore o (by omega) henc.anchors.brace

end CodeFolding
