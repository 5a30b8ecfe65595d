import CodeFolding.Proofs.Braces
import CodeFolding.Region.Blocks

/-!
Which blocks a text has.

The live characters of a text form one sequence of places. A declaration anchors the first brace
behind it that stands on no line of imports; the block ends at the partner of that brace. The scan
keeps a keyword and a stack of braces, and both are told here by the places read so far.
-/

set_option autoImplicit false

namespace CodeFolding

/-- A live character and its line. -/
structure Place where
  line : Nat
  char : Char
  deriving DecidableEq, Repr

/-- The row of a line; lines are counted from one. -/
def Row.at? (rows : List Row) : Nat → Option Row
  | 0 => none
  | i + 1 => rows[i]?

def placesFrom (n : Nat) : List Row → List Place
  | [] => []
  | row :: rest => (Nesting.liveChars row).map (Place.mk n) ++ placesFrom (n + 1) rest

def places (rows : List Row) : List Place := placesFrom 1 rows

def liveText (rows : List Row) : List Char := (places rows).map (·.char)

theorem placesFrom_append (n : Nat) (xs ys : List Row) :
    placesFrom n (xs ++ ys) = placesFrom n xs ++ placesFrom (n + xs.length) ys := by
  induction xs generalizing n with
  | nil => rfl
  | cons row xs ih =>
    simp only [List.cons_append, placesFrom, ih, List.append_assoc, List.length_cons]
    rw [show n + 1 + xs.length = n + (xs.length + 1) by omega]

theorem line_lt_of_mem {n : Nat} {rows : List Row} {p : Place} (h : p ∈ placesFrom n rows) :
    p.line < n + rows.length := by
  induction rows generalizing n with
  | nil => simp [placesFrom] at h
  | cons row rest ih =>
    simp only [placesFrom, List.mem_append, List.mem_map] at h
    simp only [List.length_cons]
    rcases h with ⟨c, _, rfl⟩ | h
    · exact Nat.lt_add_of_pos_right (by omega)
    · have := ih h
      omega

theorem liveText_get? (rows : List Row) (i : Nat) :
    (liveText rows)[i]? = (places rows)[i]?.map (·.char) := by simp [liveText]

section Places

variable {rows : List Row}

theorem le_line_of_mem_placesFrom {n : Nat} {q : Place} (h : q ∈ placesFrom n rows) :
    n ≤ q.line := by
  induction rows generalizing n with
  | nil => simp [placesFrom] at h
  | cons row rest ih =>
    simp only [placesFrom, List.mem_append, List.mem_map] at h
    rcases h with ⟨c, _, rfl⟩ | h
    · exact Nat.le_refl n
    · have := ih h
      omega

theorem pairwise_placesFrom (n : Nat) (rows : List Row) :
    (placesFrom n rows).Pairwise fun q q' => q.line ≤ q'.line := by
  induction rows generalizing n with
  | nil => exact .nil
  | cons row rest ih =>
    refine List.pairwise_append.2 ⟨?_, ih (n + 1), fun q hq q' hq' => ?_⟩
    · rw [List.pairwise_map]
      exact List.pairwise_of_forall fun _ _ => Nat.le_refl n
    · obtain ⟨c, -, rfl⟩ := List.mem_map.1 hq
      have := le_line_of_mem_placesFrom hq'
      simp only
      omega

theorem line_le_line {i j : Nat} {q q' : Place} (hi : (places rows)[i]? = some q)
    (hj : (places rows)[j]? = some q') (hij : i < j) : q.line ≤ q'.line := by
  obtain ⟨hlt, rfl⟩ := List.getElem?_eq_some_iff.1 hi
  obtain ⟨hlt', rfl⟩ := List.getElem?_eq_some_iff.1 hj
  exact List.pairwise_iff_getElem.1 (pairwise_placesFrom 1 rows) i j hlt hlt' hij

theorem places_split {k : Nat} {row : Row} (hrow : Row.at? rows k = some row) :
    places rows = placesFrom 1 (rows.take (k - 1)) ++
      ((Nesting.liveChars row).map (Place.mk k) ++ placesFrom (k + 1) (rows.drop k)) := by
  cases k with
  | zero => simp [Row.at?] at hrow
  | succ j =>
    obtain ⟨hlt, rfl⟩ := List.getElem?_eq_some_iff.1 hrow
    have hsplit : rows = rows.take j ++ rows[j] :: rows.drop (j + 1) := by
      rw [List.cons_getElem_drop_succ, List.take_append_drop]
    conv_lhs => rw [places, hsplit, placesFrom_append]
    rw [List.length_take, Nat.min_eq_left (by omega), placesFrom, Nat.add_comm 1 j,
      Nat.add_sub_cancel]

theorem row_of_place {i l : Nat} {c : Char} (h : (places rows)[i]? = some ⟨l, c⟩) :
    ∃ row, Row.at? rows l = some row ∧ c ∈ Nesting.liveChars row := by
  have hmem : ∀ {n : Nat} {rows : List Row}, ⟨l, c⟩ ∈ placesFrom n rows →
      ∃ i row, rows[i]? = some row ∧ l = n + i ∧ c ∈ Nesting.liveChars row := by
    intro n rows
    induction rows generalizing n with
    | nil => simp [placesFrom]
    | cons row rest ih =>
      intro h
      simp only [placesFrom, List.mem_append, List.mem_map, Place.mk.injEq] at h
      rcases h with ⟨d, hd, rfl, rfl⟩ | h
      · exact ⟨0, row, rfl, rfl, hd⟩
      · obtain ⟨i, row', hrow, rfl, hchar⟩ := ih h
        exact ⟨i + 1, row', hrow, by omega, hchar⟩
  obtain ⟨i, row, hrow, rfl, hchar⟩ := hmem (List.mem_of_getElem? h)
  exact ⟨row, by rw [Nat.add_comm]; exact hrow, hchar⟩

/-- The places of a line are the live characters of its row. -/
theorem place_iff {k t : Nat} {row : Row} (hrow : Row.at? rows k = some row) {c : Char} :
    (places rows)[t]? = some ⟨k, c⟩ ↔ ∃ j, t = (placesFrom 1 (rows.take (k - 1))).length + j ∧
      (Nesting.liveChars row)[j]? = some c := by
  have hk : 0 < k := by
    cases k with
    | zero => simp [Row.at?] at hrow
    | succ k => omega
  rw [places_split hrow]
  by_cases ht : t < (placesFrom 1 (rows.take (k - 1))).length
  · rw [List.getElem?_append_left ht]
    refine iff_of_false (fun hplace => ?_) (by rintro ⟨j, hj, -⟩; omega)
    have hline := line_lt_of_mem (List.mem_of_getElem? hplace)
    rw [List.length_take] at hline
    simp only at hline
    omega
  · obtain ⟨j, rfl⟩ := Nat.exists_eq_add_of_le (Nat.le_of_not_lt ht)
    rw [List.getElem?_append_right (Nat.le_add_right _ _), Nat.add_sub_cancel_left]
    simp only [Nat.add_left_cancel_iff, exists_eq_left']
    by_cases hj : j < (Nesting.liveChars row).length
    · rw [List.getElem?_append_left (by simpa using hj)]
      simp
    · rw [List.getElem?_append_right (by simpa using hj), List.getElem?_eq_none (Nat.le_of_not_lt hj)]
      refine iff_of_false (fun hplace => ?_) (by simp)
      have hline := le_line_of_mem_placesFrom (List.mem_of_getElem? hplace)
      simp only at hline
      omega

end Places

/-- A line whose declaration the scan takes up: no import owns it, it starts in code, and its
keyword is code. -/
def Candidate (rows : List Row) (spans : List Span) (k : Nat) (kind : Kind) : Prop :=
  ∃ row offset, Row.at? rows k = some row ∧ ownsLine spans k = false ∧
    row.before.isInert = false ∧ Declaration.find? row.text = some (offset, kind) ∧
    Cell.liveAt row.cells offset = true

/-- A line that goes on as a signature does. -/
def GoesOn (rows : List Row) (k : Nat) : Prop :=
  ∃ row, Row.at? rows k = some row ∧ continuesSignature (Cell.codeText row.cells) = true

/-- The declaration of line `k` anchors the brace at place `o`, which stands on line `b`. -/
structure Anchors (rows : List Row) (spans : List Span) (k : Nat) (kind : Kind) (o b : Nat) :
    Prop where
  candidate : Candidate rows spans k kind
  brace : (places rows)[o]? = some ⟨b, '{'⟩
  after : k ≤ b
  free : ownsLine spans b = false
  first : ∀ i < o, ∀ l, (places rows)[i]? = some ⟨l, '{'⟩ → k ≤ l → ownsLine spans l = true
  reach : b = k ∨ GoesOn rows k
  last : ∀ m, k < m → m ≤ b → ∀ kind', ¬ Candidate rows spans m kind'

/-- The declaration of line `k` has its braces at `o` and `c`, on the lines `b` and `e`. -/
structure Encloses (rows : List Row) (spans : List Span) (k : Nat) (kind : Kind)
    (o c b e : Nat) : Prop where
  anchors : Anchors rows spans k kind o b
  partner : Partner (liveText rows) o c
  close : (places rows)[c]? = some ⟨e, '}'⟩
  later : b < e

section Scan

variable {policy : Policy} {rows : List Row} {spans : List Span}

theorem Candidate.kind_eq {k : Nat} {kind kind' : Kind} (h : Candidate rows spans k kind)
    (h' : Candidate rows spans k kind') : kind = kind' := by
  obtain ⟨row, offset, hrow, -, -, hfind, -⟩ := h
  obtain ⟨row', offset', hrow', -, -, hfind', -⟩ := h'
  rw [hrow] at hrow'
  obtain rfl := Option.some.inj hrow'
  rw [hfind] at hfind'
  exact congrArg Prod.snd (Option.some.inj hfind')

theorem Candidate.not_owned {k : Nat} {kind : Kind} (h : Candidate rows spans k kind) :
    ownsLine spans k = false := by
  obtain ⟨_, _, _, hfree, _⟩ := h
  exact hfree

theorem candidate?_eq_some {k : Nat} {row : Row} (hrow : Row.at? rows k = some row)
    (kw : Keyword) :
    Nesting.candidate? k (ownsLine spans k) row = some kw ↔
      kw.line = k ∧ Candidate rows spans k kw.kind := by
  constructor
  · intro h
    unfold Nesting.candidate? at h
    split at h
    · simp at h
    · rename_i hstart
      simp only [Bool.or_eq_true, not_or, Bool.not_eq_true] at hstart
      split at h
      · rename_i offset kind hfind
        split at h
        · rename_i hlive
          obtain rfl := Option.some.inj h
          exact ⟨rfl, row, offset, hrow, hstart.1, hstart.2, hfind, hlive⟩
        · simp at h
      · simp at h
  · intro hgiven
    obtain ⟨rfl, row', offset, hrow', hfree, hbefore, hfind, hlive⟩ := hgiven
    rw [hrow] at hrow'
    obtain rfl := Option.some.inj hrow'
    simp [Nesting.candidate?, hfree, hbefore, hfind, hlive]

theorem Anchors.brace_eq {k : Nat} {kind kind' : Kind} {o o' b b' : Nat}
    (h : Anchors rows spans k kind o b) (h' : Anchors rows spans k kind' o' b') : o = o' := by
  rcases Nat.lt_trichotomy o o' with hlt | heq | hgt
  · have := h'.first o hlt b h.brace h.after
    simp [h.free] at this
  · exact heq
  · have := h.first o' hgt b' h'.brace h'.after
    simp [h'.free] at this

theorem Anchors.line_eq {k k' : Nat} {kind kind' : Kind} {o b b' : Nat}
    (h : Anchors rows spans k kind o b) (h' : Anchors rows spans k' kind' o b') :
    k = k' ∧ kind = kind' ∧ b = b' := by
  have hb : b = b' := by simpa [h.brace] using h'.brace
  subst hb
  rcases Nat.lt_trichotomy k k' with hlt | heq | hgt
  · exact absurd h'.candidate (h.last k' hlt h'.after kind')
  · subst heq
    exact ⟨rfl, h.candidate.kind_eq h'.candidate, rfl⟩
  · exact absurd h.candidate (h'.last k hgt h.after kind)

theorem Encloses.unique {k : Nat} {kind kind' : Kind} {o o' c c' b b' e e' : Nat}
    (h : Encloses rows spans k kind o c b e) (h' : Encloses rows spans k kind' o' c' b' e') :
    kind = kind' ∧ o = o' ∧ c = c' ∧ b = b' ∧ e = e' := by
  have ho := h.anchors.brace_eq h'.anchors
  subst ho
  obtain ⟨-, hkind, hb⟩ := h.anchors.line_eq h'.anchors
  have hc := h.partner.close_eq h'.partner
  subst hc
  have he : e = e' := by simpa [h.close] using h'.close
  exact ⟨hkind, rfl, rfl, hb, he⟩

/-- The region that ends at place `c`. -/
def Emits (policy : Policy) (rows : List Row) (spans : List Span) (c : Nat) (r : Region) : Prop :=
  ∃ k kind o b e, Encloses rows spans k kind o c b e ∧
    r = .block kind k e b (stackAt (liveText rows) o).length (policy.folds kind)

/-- A keyword that has not met its brace before place `p`, in line `n` or before. -/
structure Pending (rows : List Row) (spans : List Span) (n p : Nat) (kw : Keyword) : Prop where
  candidate : Candidate rows spans kw.line kw.kind
  reached : kw.line ≤ n
  first : ∀ i < p, ∀ l, (places rows)[i]? = some ⟨l, '{'⟩ → kw.line ≤ l → ownsLine spans l = true
  last : ∀ m, kw.line < m → m ≤ n → ∀ kind, ¬ Candidate rows spans m kind

/-- An open brace of the scan stands for the brace at a place. -/
def BraceAt (rows : List Row) (spans : List Span) (i : Nat) (b : Brace) : Prop :=
  (places rows)[i]? = some ⟨b.line, '{'⟩ ∧
    ∀ kw : Keyword, b.keyword = some kw ↔ Anchors rows spans kw.line kw.kind i b.line

/-- The scan within line `n`, before place `p`. -/
structure Within (rows : List Row) (spans : List Span) (n p : Nat) (s : Nesting) : Prop where
  waiting : ∀ kw, s.waiting = some kw ↔
    Pending rows spans n p kw ∧ (kw.line = n ∨ GoesOn rows kw.line)
  braces : List.Forall₂ (BraceAt rows spans) (stackAt (liveText rows) p) s.braces

/-- The scan behind line `n`, before place `p`. -/
structure Behind (rows : List Row) (spans : List Span) (n p : Nat) (s : Nesting) : Prop where
  waiting : ∀ kw, s.waiting = some kw ↔ Pending rows spans n p kw ∧ GoesOn rows kw.line
  braces : List.Forall₂ (BraceAt rows spans) (stackAt (liveText rows) p) s.braces

theorem pending_succ {n p l : Nat} {c : Char} {kw : Keyword}
    (hp : (places rows)[p]? = some ⟨l, c⟩) (h : c = '{' → ownsLine spans l = true) :
    Pending rows spans n (p + 1) kw ↔ Pending rows spans n p kw := by
  constructor
  · exact fun hw => ⟨hw.candidate, hw.reached, fun i hi => hw.first i (by omega), hw.last⟩
  · refine fun hw => ⟨hw.candidate, hw.reached, fun i hi l' hl' hk => ?_, hw.last⟩
    by_cases hip : i = p
    · subst hip
      rw [hp] at hl'
      simp only [Option.some.injEq, Place.mk.injEq] at hl'
      rw [← hl'.1]
      exact h hl'.2
    · exact hw.first i (by omega) l' hl' hk

theorem not_pending_of_brace {n p : Nat} {kw : Keyword}
    (hp : (places rows)[p]? = some ⟨n, '{'⟩) (hfree : ownsLine spans n = false) :
    ¬ Pending rows spans n (p + 1) kw := by
  intro hw
  have := hw.first p (by omega) n hp hw.reached
  simp [hfree] at this

theorem anchors_iff_pending {n p : Nat} {kw : Keyword}
    (hp : (places rows)[p]? = some ⟨n, '{'⟩) (hfree : ownsLine spans n = false) :
    Anchors rows spans kw.line kw.kind p n ↔
      Pending rows spans n p kw ∧ (kw.line = n ∨ GoesOn rows kw.line) := by
  constructor
  · exact fun h => ⟨⟨h.candidate, h.after, h.first, h.last⟩, h.reach.imp Eq.symm id⟩
  · intro hgiven
    obtain ⟨h, hreach⟩ := hgiven
    exact ⟨h.candidate, hp, h.reached, hfree, h.first, hreach.imp Eq.symm id, h.last⟩

variable (policy) in
theorem Within.step {n p : Nat} {c : Char} {s : Nesting} (h : Within rows spans n p s)
    (hp : (places rows)[p]? = some ⟨n, c⟩) :
    Within rows spans n (p + 1) (s.step policy n (ownsLine spans n) c).1 := by
  have hw : (liveText rows)[p]? = some c := by simp [liveText_get?, hp]
  by_cases ho : c = '{'
  · subst ho
    cases hown : ownsLine spans n with
    | true =>
      refine ⟨fun kw => ?_, ?_⟩
      · simp [Nesting.step, h.waiting, pending_succ hp (fun _ => hown)]
      · rw [stackAt_open hw]
        refine .cons ⟨hp, fun kw => ?_⟩ (by simpa [Nesting.step] using h.braces)
        simp only [reduceCtorEq, false_iff]
        intro ha
        have := ha.free
        simp [hown] at this
    | false =>
      refine ⟨fun kw => ?_, ?_⟩
      · simp [Nesting.step, not_pending_of_brace hp hown]
      · rw [stackAt_open hw]
        refine .cons ⟨hp, fun kw => ?_⟩ (by simpa [Nesting.step] using h.braces)
        rw [anchors_iff_pending hp hown]
        exact h.waiting kw
  · have hpend : ∀ kw, Pending rows spans n (p + 1) kw ↔ Pending rows spans n p kw :=
      fun kw => pending_succ hp fun hc => absurd hc ho
    by_cases hc : c = '}'
    · subst hc
      refine ⟨fun kw => ?_, ?_⟩
      · rw [hpend, ← h.waiting]
        cases hs : s.braces <;> simp [Nesting.step, hs]
      · rw [stackAt_close hw]
        have hb := h.braces
        cases hs : s.braces with
        | nil =>
          rw [hs, List.forall₂_nil_right_iff] at hb
          simp [Nesting.step, hs, hb]
        | cons b rest =>
          rw [hs] at hb
          cases hst : stackAt (liveText rows) p with
          | nil => simp [hst] at hb
          | cons i st =>
            rw [hst, List.forall₂_cons] at hb
            simpa [Nesting.step, hs] using hb.2
    · refine ⟨fun kw => ?_, ?_⟩
      · rw [hpend, ← h.waiting]
        simp [Nesting.step, ho, hc]
      · rw [stackAt_other (by simp [hw, ho]) (by simp [hw, hc])]
        simpa [Nesting.step, ho, hc] using h.braces

theorem Within.emits {n p : Nat} {c : Char} {s : Nesting} (h : Within rows spans n p s)
    (hp : (places rows)[p]? = some ⟨n, c⟩) (r : Region) :
    (s.step policy n (ownsLine spans n) c).2 = some r ↔ Emits policy rows spans p r := by
  have hw : (liveText rows)[p]? = some c := by simp [liveText_get?, hp]
  by_cases hc : c = '}'
  · subst hc
    have hb := h.braces
    cases hs : s.braces with
    | nil =>
      rw [hs, List.forall₂_nil_right_iff] at hb
      simp only [Nesting.step, hs, Char.reduceEq, if_false, if_true, reduceCtorEq, false_iff]
      intro hgiven
      obtain ⟨k, kind, o, b, e, henc, -⟩ := hgiven
      have := henc.partner.stack
      simp [hb] at this
    | cons b rest =>
      rw [hs] at hb
      cases hst : stackAt (liveText rows) p with
      | nil => simp [hst] at hb
      | cons o st =>
        rw [hst, List.forall₂_cons] at hb
        obtain ⟨⟨hbrace, hkey⟩, hrest⟩ := hb
        have hpartner : Partner (liveText rows) o p := partner_of_head hw (by simp [hst])
        have hlen : rest.length = (stackAt (liveText rows) o).length := by
          have := hpartner.stack
          rw [hst] at this
          rw [← hrest.length_eq, (List.cons.inj this).2]
        have hstep : (s.step policy n (ownsLine spans n) '}').2 =
            b.block? policy n rest.length := by simp [Nesting.step, hs]
        rw [hstep]
        constructor
        · intro hr
          unfold Brace.block? at hr
          split at hr
          · rename_i kw hkw
            split at hr
            · rename_i hlt
              have ha := (hkey kw).1 hkw
              refine ⟨kw.line, kw.kind, o, b.line, n, ⟨ha, hpartner, hp, hlt⟩, ?_⟩
              rw [← hlen]
              exact (Option.some.inj hr).symm
            · simp at hr
          · simp at hr
        · intro hgiven
          obtain ⟨k, kind, o', b', e, henc, rfl⟩ := hgiven
          have ho := henc.partner.open_eq hpartner
          subst ho
          have hb' : b' = b.line := by simpa [hbrace] using henc.anchors.brace.symm
          subst hb'
          have he : e = n := by simpa [hp] using henc.close.symm
          subst he
          have hkw := (hkey ⟨k, kind⟩).2 henc.anchors
          simp [Brace.block?, hkw, henc.later, hlen]
  · have hnone : (s.step policy n (ownsLine spans n) c).2 = none := by
      by_cases ho : c = '{'
      · cases hown : ownsLine spans n <;> simp [Nesting.step, ho]
      · simp [Nesting.step, ho, hc]
    rw [hnone]
    simp only [reduceCtorEq, false_iff]
    intro hgiven
    obtain ⟨k, kind, o, b, e, henc, -⟩ := hgiven
    have := henc.close
    rw [hp] at this
    simp only [Option.some.injEq, Place.mk.injEq] at this
    exact hc this.2

/-- The regions that the places from `p` to `q` emit, in order. -/
inductive Listing (emits : Nat → Region → Prop) : Nat → Nat → List Region → Prop where
  | done (p : Nat) : Listing emits p p []
  | next {p q : Nat} {o : Option Region} {rs : List Region} :
      (∀ r, o = some r ↔ emits p r) → Listing emits (p + 1) q rs →
      Listing emits p q (o.toList ++ rs)

theorem Listing.le {emits : Nat → Region → Prop} {p q : Nat} {rs : List Region}
    (h : Listing emits p q rs) : p ≤ q := by
  induction h with
  | done p => exact Nat.le_refl p
  | next _ _ ih => omega

theorem Listing.append {emits : Nat → Region → Prop} {p q t : Nat} {xs ys : List Region}
    (h : Listing emits p q xs) (h' : Listing emits q t ys) : Listing emits p t (xs ++ ys) := by
  induction h with
  | done p => exact h'
  | next ho _ ih =>
    rw [List.append_assoc]
    exact .next ho (ih h')

theorem Listing.mem_iff {emits : Nat → Region → Prop} {p q : Nat} {rs : List Region}
    (h : Listing emits p q rs) (r : Region) : r ∈ rs ↔ ∃ c, p ≤ c ∧ c < q ∧ emits c r := by
  induction h with
  | done p =>
    simp only [List.not_mem_nil, false_iff]
    intro hgiven
    obtain ⟨c, hp, hq, -⟩ := hgiven
    omega
  | @next p q o rs ho hrest ih =>
    have hle := hrest.le
    simp only [List.mem_append, Option.mem_toList, ho, ih]
    constructor
    · rintro (he | ⟨c, hc, hq, he⟩)
      · exact ⟨p, by omega, by omega, he⟩
      · exact ⟨c, by omega, hq, he⟩
    · intro hgiven
      obtain ⟨c, hc, hq, he⟩ := hgiven
      by_cases hcp : c = p
      · subst hcp; exact .inl he
      · exact .inr ⟨c, by omega, hq, he⟩

/-- If one place only emits regions of a sort, the list has one region of the sort. -/
theorem Listing.filter_eq {emits : Nat → Region → Prop} {p q : Nat} {rs : List Region}
    (h : Listing emits p q rs) {f : Region → Bool} {r : Region}
    (hone : ∀ c c' r r', emits c r → emits c' r' → f r = true → f r' = true → c = c' ∧ r = r')
    (hr : r ∈ rs) (hf : f r = true) : rs.filter f = [r] := by
  induction h with
  | done p => simp at hr
  | @next p q o rs ho hrest ih =>
    obtain ⟨c, hc, -, he⟩ := (Listing.mem_iff (.next ho hrest) r).1 hr
    by_cases hcp : c = p
    · subst hcp
      have htail : rs.filter f = [] := by
        refine List.filter_eq_nil_iff.2 fun r' hr' hf' => ?_
        obtain ⟨c', hc', -, he'⟩ := (hrest.mem_iff r').1 hr'
        have := (hone c c' r r' he he' hf hf').1
        omega
      simp [(ho r).2 he, hf, htail]
    · have hhead : o.toList.filter f = [] := by
        refine List.filter_eq_nil_iff.2 fun r' hr' hf' => hcp ?_
        exact (hone c p r r' he ((ho r').1 (Option.mem_toList.1 hr')) hf hf').1
      have hmem : r ∈ rs := by
        rcases List.mem_append.1 hr with hr' | hr'
        · exact absurd hf (List.filter_eq_nil_iff.1 hhead r hr')
        · exact hr'
      rw [List.filter_append, hhead, List.nil_append, ih hmem]

variable (policy) in
theorem Within.steps {n p : Nat} {cs : List Char} {rest : List Place} {s : Nesting}
    (h : Within rows spans n p s)
    (hp : (places rows).drop p = cs.map (Place.mk n) ++ rest) :
    Within rows spans n (p + cs.length) (s.steps policy n (ownsLine spans n) cs).1 ∧
      Listing (Emits policy rows spans) p (p + cs.length)
        (s.steps policy n (ownsLine spans n) cs).2 := by
  induction cs generalizing p s with
  | nil => exact ⟨h, .done p⟩
  | cons c cs ih =>
    have hc : (places rows)[p]? = some ⟨n, c⟩ := by
      rw [← List.head?_drop, hp]
      rfl
    have hdrop : (places rows).drop (p + 1) = cs.map (Place.mk n) ++ rest := by
      rw [← List.tail_drop, hp]
      rfl
    obtain ⟨hw, hl⟩ := ih (h.step policy hc) hdrop
    rw [show p + 1 + cs.length = p + (c :: cs).length by simp; omega] at hw hl
    exact ⟨hw, .next (h.emits hc) hl⟩

theorem Behind.begin {n p : Nat} {row : Row} {s : Nesting} (h : Behind rows spans n p s)
    (hrow : Row.at? rows (n + 1) = some row)
    (hlines : ∀ i < p, ∀ q, (places rows)[i]? = some q → q.line ≤ n) :
    Within rows spans (n + 1) p
      ⟨s.braces, (Nesting.candidate? (n + 1) (ownsLine spans (n + 1)) row).or s.waiting⟩ := by
  refine ⟨fun kw => ?_, h.braces⟩
  have hcand : ∀ kw : Keyword, _ ↔ kw.line = n + 1 ∧ Candidate rows spans (n + 1) kw.kind :=
    candidate?_eq_some hrow
  cases ho : Nesting.candidate? (n + 1) (ownsLine spans (n + 1)) row with
  | some own =>
    obtain ⟨hline, hown⟩ := (hcand own).1 ho
    simp only [Option.some_or, Option.some.injEq]
    constructor
    · intro heq
      subst heq
      refine ⟨⟨hline ▸ hown, by omega, fun i hi l hl hle => ?_, fun m hm hm' => by omega⟩, .inl hline⟩
      have := hlines i hi _ hl
      simp only at this
      omega
    · intro hgiven
      obtain ⟨hw, -⟩ := hgiven
      by_cases hk : kw.line = n + 1
      · have hkind := hown.kind_eq (hk ▸ hw.candidate)
        obtain ⟨line, kind⟩ := own
        obtain ⟨line', kind'⟩ := kw
        simp only at hline hk hkind
        rw [hline, hk, hkind]
      · have := hw.reached
        exact absurd hown (hw.last (n + 1) (by omega) (Nat.le_refl _) own.kind)
  | none =>
    have hnot : ∀ kind, ¬ Candidate rows spans (n + 1) kind := by
      intro kind hk
      have := (hcand ⟨n + 1, kind⟩).2 ⟨rfl, hk⟩
      simp [ho] at this
    simp only [Option.none_or, h.waiting]
    constructor
    · intro hgiven
      obtain ⟨hw, hg⟩ := hgiven
      refine ⟨⟨hw.candidate, by have := hw.reached; omega, hw.first, fun m hm hm' kind => ?_⟩, .inr hg⟩
      by_cases he : m = n + 1
      · subst he; exact hnot kind
      · exact hw.last m hm (by omega) kind
    · intro hgiven
      obtain ⟨hw, hreach⟩ := hgiven
      have hk : kw.line ≠ n + 1 := fun hk => hnot kw.kind (hk ▸ hw.candidate)
      have := hw.reached
      exact ⟨⟨hw.candidate, by omega, hw.first, fun m hm hm' => hw.last m hm (by omega)⟩,
        hreach.resolve_left hk⟩

theorem Within.endLine {n p : Nat} {row : Row} {s : Nesting} (h : Within rows spans n p s)
    (hrow : Row.at? rows n = some row)
    (hbrace : Cell.hasLive row.cells '{' = true → ∃ i < p, (places rows)[i]? = some ⟨n, '{'⟩) :
    Behind rows spans n p (s.endLine n row) := by
  have hgoes : GoesOn rows n ↔ continuesSignature (Cell.codeText row.cells) = true := by
    simp [GoesOn, hrow]
  -- a keyword that waits at the end of its own line has met no brace there
  have hnone : ∀ kw, s.waiting = some kw → kw.line = n → Cell.hasLive row.cells '{' = false := by
    intro kw hkw hk
    by_contra hlive
    obtain ⟨i, hi, hplace⟩ := hbrace (by simpa using hlive)
    have hw := ((h.waiting kw).1 hkw).1
    have := hw.first i hi n hplace hw.reached
    rw [← hk, hw.candidate.not_owned] at this
    simp at this
  cases hs : s.waiting with
  | none =>
    refine ⟨fun kw => ?_, by simpa [Nesting.endLine, hs] using h.braces⟩
    simp only [Nesting.endLine, hs, reduceCtorEq, false_iff]
    intro hgiven
    obtain ⟨hw, hg⟩ := hgiven
    have := (h.waiting kw).2 ⟨hw, .inr hg⟩
    simp [hs] at this
  | some own =>
    by_cases hdrop : own.line = n ∧ continuesSignature (Cell.codeText row.cells) = false
    · have hend : s.endLine n row = ⟨s.braces, none⟩ := by
        simp [Nesting.endLine, hs, hdrop.1, hdrop.2, hnone own hs hdrop.1]
      rw [hend]
      refine ⟨fun kw => ?_, h.braces⟩
      simp only [reduceCtorEq, false_iff]
      intro hgiven
      obtain ⟨hw, hg⟩ := hgiven
      have hkw := (h.waiting kw).2 ⟨hw, .inr hg⟩
      rw [hs] at hkw
      obtain rfl := Option.some.inj hkw
      rw [hdrop.1, hgoes, hdrop.2] at hg
      simp at hg
    · have hend : s.endLine n row = s := by
        simp only [Nesting.endLine, hs]
        rw [if_neg]
        intro hgiven
        obtain ⟨hk, -, hc⟩ := hgiven
        exact hdrop ⟨hk, by simpa using hc⟩
      rw [hend]
      refine ⟨fun kw => ?_, h.braces⟩
      rw [h.waiting]
      refine and_congr_right fun hw => ⟨fun hreach => ?_, .inr⟩
      rcases hreach with hk | hg
      · have hkw := (h.waiting kw).2 ⟨hw, .inl hk⟩
        rw [hs] at hkw
        obtain rfl := Option.some.inj hkw
        rw [hk, hgoes]
        simpa [hk] using hdrop
      · exact hg

variable (policy) in
theorem Behind.line {n p : Nat} {row : Row} {rest : List Place} {s : Nesting}
    (h : Behind rows spans n p s) (hrow : Row.at? rows (n + 1) = some row)
    (hlines : ∀ i < p, ∀ q, (places rows)[i]? = some q → q.line ≤ n)
    (hp : (places rows).drop p = (Nesting.liveChars row).map (Place.mk (n + 1)) ++ rest) :
    Behind rows spans (n + 1) (p + (Nesting.liveChars row).length)
        (s.line policy (n + 1) (ownsLine spans (n + 1)) row).1 ∧
      Listing (Emits policy rows spans) p (p + (Nesting.liveChars row).length)
        (s.line policy (n + 1) (ownsLine spans (n + 1)) row).2 := by
  obtain ⟨hw, hl⟩ := (h.begin hrow hlines).steps policy hp
  refine ⟨hw.endLine hrow fun hlive => ?_, hl⟩
  have hmem : '{' ∈ Nesting.liveChars row := by
    simpa [Cell.hasLive, Nesting.liveChars, and_assoc] using hlive
  obtain ⟨i, hi⟩ := List.mem_iff_getElem?.1 hmem
  obtain ⟨hlt, -⟩ := List.getElem?_eq_some_iff.1 hi
  refine ⟨p + i, by omega, ?_⟩
  rw [← List.getElem?_drop, hp, List.getElem?_append_left (by simpa using hlt)]
  simp [hi]

/-- The scan of the lines behind line `n` emits what their places emit. -/
theorem Behind.blocks (done : List Row) {rest : List Row} {s : Nesting} (hrows : rows = done ++ rest)
    (h : Behind rows spans done.length (placesFrom 1 done).length s) :
    Listing (Emits policy rows spans) (placesFrom 1 done).length (places rows).length
      (s.blocks policy spans (done.length + 1) rest) := by
  induction rest generalizing done s with
  | nil =>
    have : places rows = placesFrom 1 done := by simp [places, hrows]
    rw [this]
    exact .done _
  | cons row rest ih =>
    have hplaces : places rows = placesFrom 1 done ++
        ((Nesting.liveChars row).map (Place.mk (done.length + 1)) ++
          placesFrom (done.length + 2) rest) := by
      rw [places, hrows, placesFrom_append, placesFrom, Nat.add_comm 1]
    have hrow : Row.at? rows (done.length + 1) = some row := by simp [Row.at?, hrows]
    have hlines : ∀ i < (placesFrom 1 done).length, ∀ q, (places rows)[i]? = some q →
        q.line ≤ done.length := by
      intro i hi q hq
      rw [hplaces, List.getElem?_append_left hi] at hq
      have := line_lt_of_mem (List.mem_of_getElem? hq)
      omega
    have hdrop : (places rows).drop (placesFrom 1 done).length =
        (Nesting.liveChars row).map (Place.mk (done.length + 1)) ++
          placesFrom (done.length + 2) rest := by rw [hplaces, List.drop_left]
    obtain ⟨hb, hl⟩ := h.line policy hrow hlines hdrop
    have hlen : (placesFrom 1 (done ++ [row])).length =
        (placesFrom 1 done).length + (Nesting.liveChars row).length := by
      simp [placesFrom_append, placesFrom]
    have hnext := ih (done ++ [row]) (by simp [hrows]) (by simpa [hlen] using hb)
    rw [hlen, List.length_append] at hnext
    exact hl.append hnext

theorem behind_empty : Behind rows spans 0 0 .empty := by
  refine ⟨fun kw => ?_, .nil⟩
  simp only [Nesting.empty, reduceCtorEq, false_iff]
  intro hgiven
  obtain ⟨hw, -⟩ := hgiven
  obtain ⟨row, _, hrow, _⟩ := hw.candidate
  have hk : kw.line = 0 := by have := hw.reached; omega
  simp [hk, Row.at?] at hrow

theorem blockRegions_listing :
    Listing (Emits policy rows spans) 0 (places rows).length (blockRegions policy spans rows) :=
  Behind.blocks [] rfl behind_empty

theorem mem_blockRegions (r : Region) :
    r ∈ blockRegions policy spans rows ↔ ∃ c, Emits policy rows spans c r := by
  rw [blockRegions_listing.mem_iff]
  constructor
  · intro hgiven
    obtain ⟨c, -, -, h⟩ := hgiven
    exact ⟨c, h⟩
  · intro hgiven
    obtain ⟨c, h⟩ := hgiven
    obtain ⟨k, kind, o, b, e, henc, -⟩ := id h
    exact ⟨c, by omega, (List.getElem?_eq_some_iff.1 henc.close).1, h⟩

theorem filter_blockRegions {k o c b e : Nat} {kind : Kind}
    (h : Encloses rows spans k kind o c b e) :
    (blockRegions policy spans rows).filter (·.first = k) =
      [.block kind k e b (stackAt (liveText rows) o).length (policy.folds kind)] := by
  refine blockRegions_listing.filter_eq ?_ ?_ (by simp [Region.block])
  · rintro c₁ c₂ r₁ r₂ ⟨k₁, kind₁, o₁, b₁, e₁, h₁, rfl⟩ ⟨k₂, kind₂, o₂, b₂, e₂, h₂, rfl⟩ hf₁ hf₂
    have hk₁ : k₁ = k := of_decide_eq_true hf₁
    have hk₂ : k₂ = k := of_decide_eq_true hf₂
    subst hk₁ hk₂
    obtain ⟨rfl, rfl, rfl, rfl, rfl⟩ := h₁.unique h₂
    exact ⟨rfl, rfl⟩
  · exact (mem_blockRegions _).2 ⟨c, k, kind, o, b, e, h, rfl⟩

end Scan

theorem level_block {kind : Kind} {first last brace level : Nat} {folded : Bool}
    (h : level < 2147483648) : (Region.block kind first last brace level folded).level = level := by
  simp only [Region.block]
  exact Int.bmod_eq_of_le_mul_two (by omega) (by omega)

/-- A region starts on a line exactly if the line's declaration encloses braces over several lines.
It is the only one there, and its level is the number of braces open around it. -/
theorem blockRegions_exact (policy : Policy) (lines : List (List Char)) (k : Nat) :
    let rows := Row.ofLines .neutral lines
    let spans := importSpans rows
    ((∃ r ∈ blockRegions policy spans rows, r.first = k) ↔
      ∃ kind o c b e, Encloses rows spans k kind o c b e) ∧
    ∀ kind o c b e, Encloses rows spans k kind o c b e →
      ∃ r, (blockRegions policy spans rows).filter (·.first = k) = [r] ∧
        r.kind = kind ∧ r.brace = b ∧ r.last = e ∧ r.folded = policy.folds kind ∧
        ((openBefore (liveText rows) o).ncard < 2147483648 →
          r.level = (openBefore (liveText rows) o).ncard) ∧
        r.statements = none ∧ r.spans = [] := by
  intro rows spans
  refine ⟨⟨?_, ?_⟩, ?_⟩
  · intro hgiven
    obtain ⟨r, hr, rfl⟩ := hgiven
    obtain ⟨c, k, kind, o, b, e, h, rfl⟩ := (mem_blockRegions r).1 hr
    exact ⟨kind, o, c, b, e, h⟩
  · intro hgiven
    obtain ⟨kind, o, c, b, e, h⟩ := hgiven
    exact ⟨_, (mem_blockRegions _).2 ⟨c, k, kind, o, b, e, h, rfl⟩, rfl⟩
  · intro kind o c b e h
    refine ⟨_, filter_blockRegions h, rfl, rfl, rfl, rfl, ?_, rfl, rfl⟩
    rw [← length_stackAt]
    exact level_block

end CodeFolding
