import CodeFolding.Proofs.Modes
import CodeFolding.Region.Declaration

/-!
How the parts of a declaration are read.

Apart from a scope in parentheses and an interface in quotes, all parts are quiet text. Two texts
that agree as far as their quiet text goes are therefore read alike.
-/

set_option autoImplicit false

namespace CodeFolding

/-- Two texts of one length that agree on the quiet text in front and on the character behind it. -/
structure Alike (cs ds : List Char) : Prop where
  length : cs.length = ds.length
  front : ∀ w c, quiet none w = true → (w ++ [c] <+: cs ↔ w ++ [c] <+: ds)

theorem quietChar_of_none {prev : Option Char} {c : Char} (h : quietChar none c = true) :
    quietChar prev c = true := by
  simp only [quietChar, Option.any_none, Bool.or_false, Bool.and_eq_true] at h ⊢
  exact ⟨h.1, by simp [h.2]⟩

theorem quiet_append {prev : Option Char} {u v : List Char} (hu : quiet prev u = true)
    (hv : quiet none v = true) : quiet prev (u ++ v) = true := by
  induction u generalizing prev with
  | nil =>
    cases v with
    | nil => rfl
    | cons c v =>
      simp only [quiet, Bool.and_eq_true] at hv
      simp [quiet, quietChar_of_none hv.1, hv.2]
  | cons c u ih =>
    simp only [quiet, Bool.and_eq_true] at hu
    simp [quiet, hu.1, ih hu.2]

theorem quiet_of_append {prev : Option Char} {u v : List Char} (h : quiet prev (u ++ v) = true) :
    quiet prev u = true := by
  induction u generalizing prev with
  | nil => rfl
  | cons c u ih =>
    simp only [List.cons_append, quiet, Bool.and_eq_true] at h
    simp [quiet, h.1, ih h.2]

theorem quiet_blanks {prev : Option Char} {w : List Char} (h : ∀ c ∈ w, isBlank c = true) :
    quiet prev w = true := by
  induction w generalizing prev with
  | nil => rfl
  | cons c w ih =>
    have hc := h c (by simp)
    have hne : ∀ d, isBlank d = false → c ≠ d := by
      rintro d hd rfl
      simp [hc] at hd
    have hquiet : quietChar prev c = true := by
      simp [quietChar, hne '/' (by decide), hne '*' (by decide), hne '"' (by decide),
        hne '\'' (by decide), hne '\\' (by decide), hne 'r' (by decide)]
    simp only [quiet, hquiet, Bool.true_and]
    exact ih fun d hd => h d (by simp [hd])

namespace Alike

variable {cs ds s w : List Char}

theorem refl (cs : List Char) : Alike cs cs := ⟨rfl, fun _ _ _ => Iff.rfl⟩

theorem symm (h : Alike cs ds) : Alike ds cs := ⟨h.length.symm, fun w c hw => (h.front w c hw).symm⟩

theorem split (h : Alike cs ds) (hw : quiet none w = true) (hcs : cs = w ++ s) :
    ∃ t, ds = w ++ t ∧ Alike s t := by
  have hfront : w <+: ds := by
    rcases List.eq_nil_or_concat w with rfl | ⟨v, c, rfl⟩
    · exact List.nil_prefix
    · rw [List.concat_eq_append] at hw hcs ⊢
      exact (h.front v c (quiet_of_append hw)).1 ⟨s, hcs.symm⟩
  obtain ⟨t, rfl⟩ := hfront
  subst hcs
  refine ⟨t, rfl, by simpa using h.length, fun v c hv => ?_⟩
  have := h.front (w ++ v) c (quiet_append hw hv)
  rwa [List.append_assoc, List.prefix_append_right_inj, List.prefix_append_right_inj] at this

theorem head? (h : Alike cs ds) : cs.head? = ds.head? := by
  have hfirst : ∀ es : List Char, ∀ c, es.head? = some c ↔ [] ++ [c] <+: es := by
    intro es c
    cases es <;> simp [eq_comm]
  ext c
  rw [hfirst, hfirst]
  exact h.front [] c rfl

end Alike

/-- A reader that takes quiet text, the same of texts that are alike. -/
def ReadsAlike (f : List Char → Option (List Char)) : Prop :=
  ∀ ⦃cs ds s : List Char⦄, Alike cs ds → f cs = some s →
    ∃ w t, quiet none w = true ∧ cs = w ++ s ∧ ds = w ++ t ∧ f ds = some t

namespace ReadsAlike

variable {f g : List Char → Option (List Char)} {cs ds : List Char}

theorem eq_none (hf : ReadsAlike f) (h : Alike cs ds) (hcs : f cs = none) : f ds = none := by
  cases hds : f ds with
  | none => rfl
  | some t =>
    obtain ⟨w, s, -, -, -, hs⟩ := hf h.symm hds
    simp [hcs] at hs

theorem suffix (hf : ReadsAlike f) {s : List Char} (h : f cs = some s) : s <:+ cs := by
  obtain ⟨w, t, -, hcs, -⟩ := hf (.refl cs) h
  exact ⟨w, hcs.symm⟩

theorem bind (hf : ReadsAlike f) (hg : ReadsAlike g) : ReadsAlike fun cs => (f cs).bind g := by
  intro cs ds s h hs
  obtain ⟨a, ha, hs⟩ := Option.bind_eq_some_iff.1 hs
  obtain ⟨w, b, hw, hcs, hds, hb⟩ := hf h ha
  obtain ⟨b', hds', hab⟩ := h.split hw hcs
  obtain rfl : b' = b := by simpa [hds] using hds'.symm
  obtain ⟨v, t, hv, rfl, rfl, ht⟩ := hg hab hs
  exact ⟨w ++ v, t, quiet_append hw hv, by simp [hcs], by simp [hds], by simp [hb, ht]⟩

end ReadsAlike

namespace Declaration

theorem after?_eq_some {w cs s : List Char} : after? w cs = some s ↔ cs = w ++ s := by
  simp only [after?]
  split
  · rename_i hpre
    obtain ⟨t, rfl⟩ := List.isPrefixOf_iff_prefix.1 hpre
    simp
  · rename_i hpre
    refine iff_of_false (by simp) ?_
    intro heq
    subst heq
    exact hpre (List.isPrefixOf_iff_prefix.2 (List.prefix_append w s))

theorem afterBlanks?_eq_some {cs s : List Char} : afterBlanks? cs = some s ↔
    ∃ blanks, blanks ≠ [] ∧ (∀ c ∈ blanks, isBlank c = true) ∧ cs = blanks ++ s ∧
      trimStart s = s := by
  cases cs with
  | nil =>
    refine iff_of_false (by simp [afterBlanks?]) ?_
    intro hgiven
    obtain ⟨blanks, hne, -, hcs, -⟩ := hgiven
    exact hne (List.append_eq_nil_iff.1 hcs.symm).1
  | cons c rest =>
    constructor
    · intro h
      simp only [afterBlanks?] at h
      split at h
      · rename_i hc
        obtain ⟨blanks, hrest, hblanks⟩ := trimStart_spec rest
        obtain rfl := Option.some.inj h
        exact ⟨c :: blanks, by simp, by simpa [hc] using hblanks, by rw [List.cons_append, ← hrest],
          trimStart_trimStart rest⟩
      · simp at h
    · intro hgiven
      obtain ⟨blanks, hne, hblanks, hcs, hs⟩ := hgiven
      cases blanks with
      | nil => exact absurd rfl hne
      | cons b blanks =>
        obtain ⟨rfl, rfl⟩ := List.cons.inj hcs
        have hrest : trimStart (blanks ++ s) = trimStart s :=
          trimStart_append (fun d hd => hblanks d (by simp [hd])) s
        simp [afterBlanks?, hblanks c (by simp), hrest, hs]

theorem afterStop?_eq_some {stop : Char} {cs s : List Char} : afterStop? stop cs = some s ↔
    ∃ k, cs[k]? = some stop ∧ (∀ l < k, cs[l]? ≠ some stop) ∧ s = cs.drop (k + 1) := by
  induction cs with
  | nil => simp [afterStop?]
  | cons c rest ih =>
    by_cases hc : c = stop
    · simp only [afterStop?, hc, if_true, Option.some.injEq]
      constructor
      · intro heq
        subst heq
        exact ⟨0, rfl, by simp, rfl⟩
      · intro hgiven
        obtain ⟨k, hk, hno, rfl⟩ := hgiven
        cases k with
        | zero => rfl
        | succ k => exact absurd rfl (hno 0 (by omega))
    · simp only [afterStop?, hc, if_false, ih]
      constructor
      · intro hgiven
        obtain ⟨k, hk, hno, rfl⟩ := hgiven
        refine ⟨k + 1, hk, fun l hl => ?_, rfl⟩
        cases l with
        | zero => simpa using hc
        | succ l => exact hno l (by omega)
      · intro hgiven
        obtain ⟨k, hk, hno, rfl⟩ := hgiven
        cases k with
        | zero => exact absurd (by simpa using hk) hc
        | succ k => exact ⟨k, hk, fun l hl => hno (l + 1) (by omega), rfl⟩

theorem afterStop?_drop {stop : Char} {text s : List Char} {i : Nat} :
    afterStop? stop (text.drop i) = some s ↔
      ∃ k, i ≤ k ∧ text[k]? = some stop ∧ (∀ l, i ≤ l → l < k → text[l]? ≠ some stop) ∧
        s = text.drop (k + 1) := by
  simp only [afterStop?_eq_some, List.getElem?_drop, List.drop_drop]
  constructor
  · intro hgiven
    obtain ⟨k, hk, hno, rfl⟩ := hgiven
    refine ⟨i + k, by omega, hk, fun l hl hl' => ?_, rfl⟩
    rw [show l = i + (l - i) by omega]
    exact hno (l - i) (by omega)
  · intro hgiven
    obtain ⟨k, hik, hk, hno, rfl⟩ := hgiven
    have he : i + (k - i) = k := by omega
    exact ⟨k - i, by rwa [he], fun l hl => hno (i + l) (by omega) (by omega),
      by rw [← Nat.add_assoc, he]⟩

theorem readsAlike_after {w : List Char} (hw : quiet none w = true) : ReadsAlike (after? w) := by
  intro cs ds s h hs
  have hcs := after?_eq_some.1 hs
  obtain ⟨t, hds, -⟩ := h.split hw hcs
  exact ⟨w, t, hw, hcs, hds, after?_eq_some.2 hds⟩

theorem readsAlike_afterBlanks : ReadsAlike afterBlanks? := by
  intro cs ds s h hs
  obtain ⟨blanks, hne, hblanks, hcs, htrim⟩ := afterBlanks?_eq_some.1 hs
  obtain ⟨t, hds, hst⟩ := h.split (quiet_blanks hblanks) hcs
  have htrim' : trimStart t = t := by
    rw [trimStart_eq_self_iff] at htrim ⊢
    rwa [← hst.head?]
  exact ⟨blanks, t, quiet_blanks hblanks, hcs, hds,
    afterBlanks?_eq_some.2 ⟨blanks, hne, hblanks, hds, htrim'⟩⟩

theorem readsAlike_qualifier {words : List String} (h : ∀ w ∈ words, quiet none w.toList = true) :
    ReadsAlike (qualifier? words) := by
  induction words with
  | nil => simp [ReadsAlike, qualifier?]
  | cons w words ih =>
    have hfirst := (readsAlike_after (h w (by simp))).bind readsAlike_afterBlanks
    have hrest := ih fun v hv => h v (by simp [hv])
    intro cs ds s halike hs
    simp only [qualifier?, List.findSome?_cons] at hs ⊢
    cases hcs : (after? w.toList cs).bind afterBlanks? with
    | some a =>
      obtain ⟨v, t, hv, hc, hd, ht⟩ := hfirst halike hcs
      rw [hcs] at hs
      obtain rfl := Option.some.inj hs
      exact ⟨v, t, hv, hc, hd, by simp only [ht]⟩
    | none =>
      have hds : (after? w.toList ds).bind afterBlanks? = none := hfirst.eq_none halike hcs
      rw [hcs] at hs
      rw [hds]
      exact hrest halike hs

theorem afterQualifiers_alike {words : List String} (h : ∀ w ∈ words, quiet none w.toList = true)
    (fuel : Nat) {cs ds : List Char} (halike : Alike cs ds) :
    ∃ w s t, quiet none w = true ∧ cs = w ++ s ∧ ds = w ++ t ∧
      afterQualifiers words fuel cs = s ∧ afterQualifiers words fuel ds = t := by
  induction fuel generalizing cs ds with
  | zero => exact ⟨[], cs, ds, rfl, rfl, rfl, rfl, rfl⟩
  | succ fuel ih =>
    cases hcs : qualifier? words cs with
    | none =>
      have hds := (readsAlike_qualifier h).eq_none halike hcs
      exact ⟨[], cs, ds, rfl, rfl, rfl, by simp [afterQualifiers, hcs],
        by simp [afterQualifiers, hds]⟩
    | some a =>
      obtain ⟨v, b, hv, hc, rfl, hds⟩ := readsAlike_qualifier h halike hcs
      obtain ⟨b', hb', hab⟩ := halike.split hv hc
      obtain rfl := List.append_cancel_left hb'
      obtain ⟨w, s, t, hw, rfl, rfl, hs, ht⟩ := ih hab
      exact ⟨v ++ w, s, t, quiet_append hv hw, by simp [hc], by simp,
        by simp [afterQualifiers, hcs, hs], by simp [afterQualifiers, hds, ht]⟩

theorem skipQualifiers_alike {words : List String} (h : ∀ w ∈ words, quiet none w.toList = true)
    {cs ds : List Char} (halike : Alike cs ds) :
    ∃ w s t, quiet none w = true ∧ cs = w ++ s ∧ ds = w ++ t ∧
      skipQualifiers words cs = s ∧ skipQualifiers words ds = t := by
  unfold skipQualifiers
  rw [halike.length]
  exact afterQualifiers_alike h ds.length halike

theorem trimStart_alike {cs ds : List Char} (halike : Alike cs ds) :
    ∃ w, quiet none w = true ∧ cs = w ++ trimStart cs ∧ ds = w ++ trimStart ds := by
  obtain ⟨w, hcs, hw⟩ := trimStart_spec cs
  obtain ⟨t, hds, hst⟩ := halike.split (quiet_blanks hw) hcs
  have ht : trimStart ds = t := by
    have htrim : trimStart t = t := by
      rw [trimStart_eq_self_iff, ← hst.head?, ← trimStart_eq_self_iff]
      exact trimStart_trimStart cs
    rw [hds, trimStart_append hw, htrim]
  exact ⟨w, quiet_blanks hw, hcs, by rw [ht, ← hds]⟩

theorem quiet_name (k : Kind) : quiet none k.name.toList = true := by cases k <;> decide

theorem keyword?_alike {cs ds : List Char} (h : Alike cs ds) : keyword? cs = keyword? ds := by
  unfold keyword?
  congr 1
  funext k
  have hname := readsAlike_after (quiet_name k)
  cases hcs : after? k.name.toList cs with
  | none => rw [hname.eq_none h hcs]
  | some s =>
    obtain ⟨t, hds, hst⟩ := h.split (quiet_name k) (after?_eq_some.1 hcs)
    have hends : endsWord s = endsWord t := by
      have hhead := hst.head?
      cases s <;> cases t <;> simp_all [endsWord]
    simpa only [after?_eq_some.2 hds] using hends

def leadingQualifiers : List String := ["default", "const", "async", "unsafe"]

def trailingQualifiers : List String := ["async", "unsafe"]

theorem quiet_leading : ∀ w ∈ leadingQualifiers, quiet none w.toList = true := by decide

theorem quiet_trailing : ∀ w ∈ trailingQualifiers, quiet none w.toList = true := by decide

/-- The text from where the keyword has to be, an interface and qualifiers being in front. -/
def fromInterface (cs : List Char) : List Char :=
  skipQualifiers trailingQualifiers ((interface? cs).getD cs)

/-- The text from where the keyword has to be, no visibility being in front. -/
def fromQualifiers (cs : List Char) : List Char :=
  fromInterface (skipQualifiers leadingQualifiers cs)

theorem fromKeyword_eq (line : List Char) : fromKeyword line =
    fromQualifiers ((visibility? (trimStart line)).getD (trimStart line)) := rfl

theorem skipQualifiers_of_none {words : List String} {cs : List Char}
    (h : qualifier? words cs = none) : skipQualifiers words cs = cs := by
  unfold skipQualifiers
  cases cs.length <;> simp [afterQualifiers, h]

theorem visibility?_none {cs : List Char} (h : after? "pub".toList cs = none) :
    visibility? cs = none := by rw [visibility?, h, Option.bind_none]

theorem visibility?_scope {cs scope : List Char} (h : after? "pub".toList cs = some ('(' :: scope)) :
    visibility? cs = (afterStop? ')' scope).bind afterBlanks? := by
  rw [visibility?, h]
  rfl

theorem visibility?_plain {cs rest : List Char} (h : after? "pub".toList cs = some rest)
    (hrest : rest.head? ≠ some '(') : visibility? cs = afterBlanks? rest := by
  rw [visibility?, h, Option.bind_some]
  split
  · simp at hrest
  · rfl

theorem interfaceName?_none {cs : List Char} (h : cs.head? ≠ some '"') : interfaceName? cs = none := by
  unfold interfaceName?
  split
  · simp at h
  · rfl

theorem fromInterface_none {cs : List Char}
    (h : (after? "extern".toList cs).bind afterBlanks? = none) :
    fromInterface cs = skipQualifiers trailingQualifiers cs := by
  rw [fromInterface, interface?, h, Option.map_none, Option.getD_none]

theorem fromInterface_some {cs rest : List Char}
    (h : (after? "extern".toList cs).bind afterBlanks? = some rest) : fromInterface cs =
      skipQualifiers trailingQualifiers ((interfaceName? rest).getD rest) := by
  rw [fromInterface, interface?, h, Option.map_some, Option.getD_some]

/-- Behind an interface nothing is read from a quote on. -/
theorem keyword?_of_quote (rest : List Char) :
    keyword? (skipQualifiers trailingQualifiers ('"' :: rest)) = none := by
  rw [skipQualifiers_of_none rfl]
  rfl

/-- No part behind the visibility begins with one of these characters. -/
theorem keyword?_of_idle {c : Char} (hc : c ∈ 'p' :: 'r' :: Mode.fences) (rest : List Char) :
    keyword? (fromQualifiers (c :: rest)) = none := by
  simp only [Mode.fences, List.mem_cons, List.not_mem_nil, or_false] at hc
  have hstuck : fromQualifiers (c :: rest) = c :: rest := by
    rw [fromQualifiers, skipQualifiers_of_none, fromInterface]
    all_goals rcases hc with rfl | rfl | rfl | rfl | rfl
    all_goals rfl
  rw [hstuck]
  rcases hc with rfl | rfl | rfl | rfl | rfl <;> rfl

theorem enclosed_suffix {stop : Char} {cs s : List Char}
    (h : (afterStop? stop cs).bind afterBlanks? = some s) : s <:+ cs := by
  obtain ⟨t, ht, hs⟩ := Option.bind_eq_some_iff.1 h
  obtain ⟨k, -, -, rfl⟩ := afterStop?_eq_some.1 ht
  exact (readsAlike_afterBlanks.suffix hs).trans (List.drop_suffix _ cs)

theorem visibility?_suffix {cs s : List Char} (h : visibility? cs = some s) : s <:+ cs := by
  obtain ⟨rest, hrest, hs⟩ := Option.bind_eq_some_iff.1 h
  refine List.IsSuffix.trans ?_ ((readsAlike_after (by decide)).suffix hrest)
  split at hs
  · exact (enclosed_suffix hs).trans (List.suffix_cons _ _)
  · exact readsAlike_afterBlanks.suffix hs

theorem readsAlike_foreign :
    ReadsAlike fun cs => (after? "extern".toList cs).bind afterBlanks? :=
  (readsAlike_after (by decide)).bind readsAlike_afterBlanks

theorem interface?_suffix {cs s : List Char} (h : interface? cs = some s) : s <:+ cs := by
  obtain ⟨rest, hrest, rfl⟩ := Option.map_eq_some_iff.1 h
  refine List.IsSuffix.trans ?_ (readsAlike_foreign.suffix hrest)
  cases hname : interfaceName? rest with
  | none => exact List.suffix_refl rest
  | some s =>
    unfold interfaceName? at hname
    split at hname
    · exact (enclosed_suffix hname).trans (List.suffix_cons _ _)
    · simp at hname

theorem skipQualifiers_suffix {words : List String} (h : ∀ w ∈ words, quiet none w.toList = true)
    (cs : List Char) : skipQualifiers words cs <:+ cs := by
  obtain ⟨w, s, t, -, hcs, -, rfl, -⟩ := skipQualifiers_alike h (.refl cs)
  exact ⟨w, hcs.symm⟩

theorem getD_suffix {o : Option (List Char)} {cs : List Char} (h : ∀ s, o = some s → s <:+ cs) :
    o.getD cs <:+ cs := by
  cases o with
  | none => exact List.suffix_refl cs
  | some s => exact h s rfl

theorem fromKeyword_suffix (line : List Char) : fromKeyword line <:+ line := by
  rw [fromKeyword_eq]
  refine (skipQualifiers_suffix quiet_trailing _).trans ?_
  refine (getD_suffix fun s hs => interface?_suffix hs).trans ?_
  refine (skipQualifiers_suffix quiet_leading _).trans ?_
  refine (getD_suffix fun s hs => visibility?_suffix hs).trans ?_
  exact List.dropWhile_suffix isBlank

end Declaration

end CodeFolding
