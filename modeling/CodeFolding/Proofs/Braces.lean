import Mathlib.Data.Set.Card

/-!
Braces of a text and their partners.

The partner of an opening brace is the first closing brace behind it with balanced text between the
two. A closing brace without a partner is passed over, so text of any kind has partners; a stack of
positions finds them.
-/

set_option autoImplicit false

namespace CodeFolding

/-- Texts in which every brace has a partner. -/
inductive Balanced : List Char → Prop where
  | nil : Balanced []
  | plain {c : Char} {w : List Char} : c ≠ '{' → c ≠ '}' → Balanced w → Balanced (c :: w)
  | nest {u v : List Char} : Balanced u → Balanced v → Balanced ('{' :: u ++ '}' :: v)

def between (w : List Char) (o c : Nat) : List Char := (w.take c).drop (o + 1)

/-- The brace opened at `o` is closed at `c`. -/
structure Partner (w : List Char) (o c : Nat) : Prop where
  opens : w[o]? = some '{'
  closes : w[c]? = some '}'
  order : o < c
  inner : Balanced (between w o c)
  first : ∀ d, o < d → d < c → w[d]? = some '}' → ¬ Balanced (between w o d)

/-- The braces opened before `p` that have no partner before `p`. -/
def openBefore (w : List Char) (p : Nat) : Set Nat :=
  {i | i < p ∧ w[i]? = some '{' ∧ ∀ c < p, ¬ Partner w i c}

/-- How many braces are open after a text, if it closes none that was not open. -/
def depthAfter? (depth : Nat) : List Char → Option Nat
  | [] => some depth
  | c :: rest =>
    if c = '{' then depthAfter? (depth + 1) rest
    else if c = '}' then
      match depth with
      | 0 => none
      | d + 1 => depthAfter? d rest
    else depthAfter? depth rest

theorem depthAfter?_append (d : Nat) (u v : List Char) :
    depthAfter? d (u ++ v) = (depthAfter? d u).bind (depthAfter? · v) := by
  induction u generalizing d with
  | nil => rfl
  | cons c u ih =>
    by_cases ho : c = '{'
    · simp [depthAfter?, ho, ih]
    · by_cases hc : c = '}'
      · cases d with
        | zero => simp [depthAfter?, hc]
        | succ d => simp [depthAfter?, hc, ih]
      · simp [depthAfter?, ho, hc, ih]

theorem Balanced.depth {w : List Char} (h : Balanced w) (d : Nat) : depthAfter? d w = some d := by
  induction h generalizing d with
  | nil => rfl
  | plain ho hc _ ih => simp [depthAfter?, ho, hc, ih]
  | nest _ _ ihu ihv => simp [depthAfter?, depthAfter?_append, ihu, ihv]

theorem split_of_depth (n : Nat) {d e : Nat} {w : List Char} (hn : w.length ≤ n)
    (h : depthAfter? (d + 1) w = some e) (he : e ≤ d) :
    ∃ u v, w = u ++ '}' :: v ∧ Balanced u ∧ depthAfter? d v = some e := by
  induction n generalizing d w with
  | zero =>
    have hw : w = [] := List.length_eq_zero_iff.1 (by omega)
    subst hw
    simp only [depthAfter?, Option.some.injEq] at h
    omega
  | succ n ih =>
    cases w with
    | nil =>
      simp only [depthAfter?, Option.some.injEq] at h
      omega
    | cons c w =>
      simp only [List.length_cons] at hn
      by_cases ho : c = '{'
      · subst ho
        have h₁ : depthAfter? (d + 1 + 1) w = some e := by simpa [depthAfter?] using h
        -- the new brace is closed first, and what is left is shorter again
        obtain ⟨u₁, v₁, rfl, hu₁, hv₁⟩ := ih (by omega) h₁ (by omega)
        simp only [List.length_append, List.length_cons] at hn
        obtain ⟨u₂, v₂, rfl, hu₂, hv₂⟩ := ih (by omega) hv₁ he
        exact ⟨'{' :: u₁ ++ '}' :: u₂, v₂, by simp, .nest hu₁ hu₂, hv₂⟩
      · by_cases hc : c = '}'
        · subst hc
          exact ⟨[], w, rfl, .nil, by simpa [depthAfter?] using h⟩
        · have h₁ : depthAfter? (d + 1) w = some e := by simpa [depthAfter?, ho, hc] using h
          obtain ⟨u, v, rfl, hu, hv⟩ := ih (by omega) h₁ he
          exact ⟨c :: u, v, rfl, .plain ho hc hu, hv⟩

theorem balanced_of_depth (n : Nat) {w : List Char} (hn : w.length ≤ n)
    (h : depthAfter? 0 w = some 0) : Balanced w := by
  induction n generalizing w with
  | zero =>
    have hw : w = [] := List.length_eq_zero_iff.1 (by omega)
    subst hw
    exact .nil
  | succ n ih =>
    cases w with
    | nil => exact .nil
    | cons c w =>
      simp only [List.length_cons] at hn
      by_cases ho : c = '{'
      · subst ho
        have h₁ : depthAfter? (0 + 1) w = some 0 := by simpa [depthAfter?] using h
        obtain ⟨u, v, rfl, hu, hv⟩ := split_of_depth n (by omega) h₁ (by omega)
        simp only [List.length_append, List.length_cons] at hn
        exact .nest hu (ih (by omega) hv)
      · by_cases hc : c = '}'
        · simp [depthAfter?, hc] at h
        · exact .plain ho hc (ih (by omega) (by simpa [depthAfter?, ho, hc] using h))

theorem balanced_iff (w : List Char) : Balanced w ↔ depthAfter? 0 w = some 0 :=
  ⟨fun h => h.depth 0, balanced_of_depth w.length (Nat.le_refl _)⟩

theorem between_succ {w : List Char} {o p : Nat} {c : Char} (ho : o < p) (hp : w[p]? = some c) :
    between w o (p + 1) = between w o p ++ [c] := by
  obtain ⟨hlt, _⟩ := List.getElem?_eq_some_iff.1 hp
  have hlen : (w.take p).length = p := by simp; omega
  simp only [between, List.take_add_one, hp, Option.toList_some]
  exact List.drop_append_of_le_length (by omega)

@[simp] theorem between_self (w : List Char) (o : Nat) : between w o (o + 1) = [] := by
  simp [between]

theorem between_append {w : List Char} {o p q : Nat} (ho : o < p) (hp : p ≤ q) :
    ∃ v, between w o q = between w o p ++ v := by
  by_cases hw : p ≤ w.length
  · have h := List.take_append_drop p (w.take q)
    rw [List.take_take, Nat.min_eq_left hp] at h
    refine ⟨(w.take q).drop p, ?_⟩
    calc between w o q = (w.take p ++ (w.take q).drop p).drop (o + 1) := by rw [h, between]
      _ = between w o p ++ (w.take q).drop p :=
        List.drop_append_of_le_length (by simp; omega)
  · refine ⟨[], ?_⟩
    simp only [between, List.append_nil]
    rw [List.take_of_length_le (by omega), List.take_of_length_le (by omega)]

/-- The open braces before `p`, innermost first. -/
def stackAt (w : List Char) : Nat → List Nat
  | 0 => []
  | p + 1 =>
    match w[p]? with
    | some '{' => p :: stackAt w p
    | some '}' => (stackAt w p).tail
    | _ => stackAt w p

theorem stackAt_open {w : List Char} {p : Nat} (h : w[p]? = some '{') :
    stackAt w (p + 1) = p :: stackAt w p := by simp [stackAt, h]

theorem stackAt_close {w : List Char} {p : Nat} (h : w[p]? = some '}') :
    stackAt w (p + 1) = (stackAt w p).tail := by simp [stackAt, h]

theorem stackAt_other {w : List Char} {p : Nat} (ho : w[p]? ≠ some '{') (hc : w[p]? ≠ some '}') :
    stackAt w (p + 1) = stackAt w p := by
  rw [stackAt]
  split
  · contradiction
  · contradiction
  · rfl

theorem stackAt_cases {w : List Char} (p : Nat) :
    (w[p]? = some '{' ∧ stackAt w (p + 1) = p :: stackAt w p) ∨
    (w[p]? = some '}' ∧ stackAt w (p + 1) = (stackAt w p).tail) ∨
    (w[p]? ≠ some '{' ∧ w[p]? ≠ some '}' ∧ stackAt w (p + 1) = stackAt w p) := by
  by_cases ho : w[p]? = some '{'
  · exact .inl ⟨ho, stackAt_open ho⟩
  · by_cases hc : w[p]? = some '}'
    · exact .inr (.inl ⟨hc, stackAt_close hc⟩)
    · exact .inr (.inr ⟨ho, hc, stackAt_other ho hc⟩)

/-- The text behind the `j`-th open brace opens just the `j` braces inside it. -/
theorem depth_of_stackAt {w : List Char} {p j i : Nat} (h : (stackAt w p)[j]? = some i) :
    i < p ∧ w[i]? = some '{' ∧ depthAfter? 0 (between w i p) = some j := by
  induction p generalizing j with
  | zero => simp [stackAt] at h
  | succ p ih =>
    rcases stackAt_cases (w := w) p with ⟨hp, hs⟩ | ⟨hp, hs⟩ | ⟨ho, hc, hs⟩
    · cases j with
      | zero =>
        simp only [hs, List.getElem?_cons_zero, Option.some.injEq] at h
        subst h
        exact ⟨by omega, hp, by simp [depthAfter?]⟩
      | succ j =>
        obtain ⟨hlt, hi, hd⟩ := ih (by simpa [hs] using h)
        refine ⟨by omega, hi, ?_⟩
        simp [between_succ hlt hp, depthAfter?_append, hd, depthAfter?]
    · obtain ⟨hlt, hi, hd⟩ := ih (j := j + 1) (by simpa [hs] using h)
      refine ⟨by omega, hi, ?_⟩
      simp [between_succ hlt hp, depthAfter?_append, hd, depthAfter?]
    · obtain ⟨hlt, hi, hd⟩ := ih (by simpa [hs] using h)
      refine ⟨by omega, hi, ?_⟩
      cases hp : w[p]? with
      | none =>
        have hlen : w.length ≤ p := List.getElem?_eq_none_iff.1 hp
        have hb : between w i (p + 1) = between w i p := by
          rw [between, between, List.take_of_length_le hlen,
            List.take_of_length_le (by omega)]
        rw [hb, hd]
      | some c =>
        have hco : c ≠ '{' := by rintro rfl; exact ho hp
        have hcc : c ≠ '}' := by rintro rfl; exact hc hp
        simp [between_succ hlt hp, depthAfter?_append, hd, depthAfter?, hco, hcc]

theorem drop_stackAt {w : List Char} {p j i : Nat} (h : (stackAt w p)[j]? = some i) :
    (stackAt w p).drop j = i :: stackAt w i := by
  induction p generalizing j with
  | zero => simp [stackAt] at h
  | succ p ih =>
    rcases stackAt_cases (w := w) p with ⟨hp, hs⟩ | ⟨hp, hs⟩ | ⟨ho, hc, hs⟩
    · cases j with
      | zero =>
        simp only [hs, List.getElem?_cons_zero, Option.some.injEq] at h
        subst h
        rw [hs, List.drop_zero]
      | succ j => rw [hs]; exact ih (by simpa [hs] using h)
    · have ht := ih (j := j + 1) (by simpa [hs] using h)
      rw [hs, List.drop_tail]
      exact ht
    · rw [hs]; exact ih (by simpa [hs] using h)

/-- A brace inside of which more is closed than opened has been closed. -/
theorem no_close_inside {w : List Char} {i d p j : Nat} (hid : i < d) (hd : w[d]? = some '}')
    (hb : Balanced (between w i d)) (hdp : d < p)
    (hp : depthAfter? 0 (between w i p) = some j) : False := by
  obtain ⟨v, hv⟩ := between_append (w := w) (show i < d + 1 by omega) (show d + 1 ≤ p by omega)
  rw [hv, depthAfter?_append, between_succ hid hd, depthAfter?_append, hb.depth] at hp
  simp [depthAfter?] at hp

theorem partner_of_head {w : List Char} {o c : Nat} (hc : w[c]? = some '}')
    (h : (stackAt w c)[0]? = some o) : Partner w o c := by
  obtain ⟨hlt, ho, hd⟩ := depth_of_stackAt h
  exact ⟨ho, hc, hlt, (balanced_iff _).2 hd,
    fun d hod hdc hd' hb => no_close_inside hod hd' hb hdc hd⟩

theorem on_stack_or_closed {w : List Char} {i p : Nat} (hi : w[i]? = some '{') (hip : i < p) :
    i ∈ stackAt w p ∨ ∃ c < p, Partner w i c := by
  induction p with
  | zero => omega
  | succ p ih =>
    by_cases he : i = p
    · subst he
      exact .inl (by simp [stackAt_open hi])
    · rcases ih (by omega) with hmem | ⟨c, hc, hpartner⟩
      · rcases stackAt_cases (w := w) p with ⟨-, hs⟩ | ⟨hp, hs⟩ | ⟨-, -, hs⟩
        · exact .inl (by simp [hs, hmem])
        · cases hst : stackAt w p with
          | nil => simp [hst] at hmem
          | cons t rest =>
            rw [hst] at hmem
            rcases List.mem_cons.1 hmem with rfl | hrest
            · exact .inr ⟨p, by omega, partner_of_head hp (by simp [hst])⟩
            · exact .inl (by simpa [hs, hst] using hrest)
        · exact .inl (by simpa [hs] using hmem)
      · exact .inr ⟨c, by omega, hpartner⟩

theorem mem_stackAt {w : List Char} {i p : Nat} : i ∈ stackAt w p ↔ i ∈ openBefore w p := by
  constructor
  · intro h
    obtain ⟨j, hj⟩ := List.mem_iff_getElem?.1 h
    obtain ⟨hlt, ho, hd⟩ := depth_of_stackAt hj
    exact ⟨hlt, ho, fun c hc hp => no_close_inside hp.order hp.closes hp.inner hc hd⟩
  · intro hgiven
    obtain ⟨hlt, ho, hopen⟩ := hgiven
    rcases on_stack_or_closed ho hlt with h | ⟨c, hc, hp⟩
    · exact h
    · exact absurd hp (hopen c hc)

/-- A closing brace finds its partner on top of the stack, with the braces around it below. -/
theorem Partner.stack {w : List Char} {o c : Nat} (h : Partner w o c) :
    stackAt w c = o :: stackAt w o := by
  have hmem : o ∈ stackAt w c := by
    rw [mem_stackAt]
    exact ⟨h.order, h.opens, fun d hd hp => h.first d hp.order hd hp.closes hp.inner⟩
  obtain ⟨j, hj⟩ := List.mem_iff_getElem?.1 hmem
  obtain ⟨-, -, hd⟩ := depth_of_stackAt hj
  have hj0 : j = 0 := by simpa [h.inner.depth] using hd.symm
  subst hj0
  simpa using drop_stackAt hj

theorem Partner.open_eq {w : List Char} {o o' c : Nat} (h : Partner w o c)
    (h' : Partner w o' c) : o = o' := by
  have hs := h.stack
  rw [h'.stack] at hs
  exact (List.cons.inj hs).1.symm

theorem Partner.close_eq {w : List Char} {o c c' : Nat} (h : Partner w o c)
    (h' : Partner w o c') : c = c' := by
  rcases Nat.lt_trichotomy c c' with hlt | heq | hgt
  · exact absurd h.inner (h'.first c h.order hlt h.closes)
  · exact heq
  · exact absurd h'.inner (h.first c' h'.order hgt h'.closes)

theorem nodup_stackAt (w : List Char) (p : Nat) : (stackAt w p).Nodup := by
  induction p with
  | zero => simp [stackAt]
  | succ p ih =>
    rcases stackAt_cases (w := w) p with ⟨-, hs⟩ | ⟨-, hs⟩ | ⟨-, -, hs⟩
    · rw [hs, List.nodup_cons]
      exact ⟨fun h => Nat.lt_irrefl p (mem_stackAt.1 h).1, ih⟩
    · rw [hs]; exact ih.tail
    · rw [hs]; exact ih

theorem length_stackAt (w : List Char) (p : Nat) :
    (stackAt w p).length = (openBefore w p).ncard := by
  have hset : openBefore w p = ((stackAt w p).toFinset : Set Nat) := by
    ext i
    simp [mem_stackAt]
  rw [hset, Set.ncard_coe_finset, List.toFinset_card_of_nodup (nodup_stackAt w p)]

theorem ncard_openBefore_le (w : List Char) (p : Nat) : (openBefore w p).ncard ≤ w.length := by
  have hsub : openBefore w p ⊆ (Finset.range w.length : Set Nat) := fun i hi =>
    Finset.mem_coe.2 (Finset.mem_range.2 (List.getElem?_eq_some_iff.1 hi.2.1).1)
  calc (openBefore w p).ncard ≤ (Finset.range w.length : Set Nat).ncard :=
        Set.ncard_le_ncard hsub (Finset.finite_toSet _)
    _ = w.length := by rw [Set.ncard_coe_finset, Finset.card_range]

end CodeFolding
