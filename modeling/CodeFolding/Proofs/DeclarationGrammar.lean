import CodeFolding.Proofs.DeclarationParts

/-!
The grammar of declarations at the start of a line.

Blanks, a visibility, qualifiers, an interface and more qualifiers stand in front of a keyword, each
of them at will. What is read of a line is always such a front, and a front with a keyword behind it
is read whole, though some of its qualifiers may be taken by the other run of qualifiers. So the
reading, which takes nothing back, finds the keyword of every line that has one.
-/

set_option autoImplicit false

namespace CodeFolding.Declaration

/-- One blank or more. -/
def Blanks (w : List Char) : Prop := w ≠ [] ∧ ∀ c ∈ w, isBlank c = true

inductive Visibility : List Char → Prop where
  | none : Visibility []
  | plain {gap : List Char} : Blanks gap → Visibility ("pub".toList ++ gap)
  | within {scope gap : List Char} : ')' ∉ scope → Blanks gap →
      Visibility ("pub".toList ++ '(' :: scope ++ ')' :: gap)

inductive Qualifiers (words : List String) : List Char → Prop where
  | nil : Qualifiers words []
  | cons {word : String} {gap more : List Char} : word ∈ words → Blanks gap →
      Qualifiers words more → Qualifiers words (word.toList ++ gap ++ more)

inductive Interface : List Char → Prop where
  | none : Interface []
  | plain {gap : List Char} : Blanks gap → Interface ("extern".toList ++ gap)
  | named {gap name gap' : List Char} : Blanks gap → '"' ∉ name → Blanks gap' →
      Interface ("extern".toList ++ gap ++ '"' :: name ++ '"' :: gap')

/-- The text before the keyword of a declaration. -/
inductive Front : List Char → Prop where
  | intro {blanks visibility leading interface trailing : List Char} :
      (∀ c ∈ blanks, isBlank c = true) → Visibility visibility →
      Qualifiers leadingQualifiers leading → Interface interface →
      Qualifiers trailingQualifiers trailing →
      Front (blanks ++ (visibility ++ (leading ++ (interface ++ trailing))))

section Read

variable {cs s gap more : List Char} {words : List String}

/-! ## What is read is a front -/

theorem blanks_of_afterBlanks? (h : afterBlanks? cs = some s) : ∃ gap, Blanks gap ∧ cs = gap ++ s := by
  obtain ⟨gap, hne, hblanks, hcs, -⟩ := afterBlanks?_eq_some.1 h
  exact ⟨gap, ⟨hne, hblanks⟩, hcs⟩

theorem split_of_afterStop? {stop : Char} (h : afterStop? stop cs = some s) :
    ∃ body, stop ∉ body ∧ cs = body ++ stop :: s := by
  induction cs with
  | nil => simp [afterStop?] at h
  | cons c rest ih =>
    by_cases hc : c = stop
    · obtain rfl : rest = s := by simpa [afterStop?, hc] using h
      exact ⟨[], by simp, by simp [hc]⟩
    · simp only [afterStop?, hc, if_false] at h
      obtain ⟨body, hbody, rfl⟩ := ih h
      exact ⟨c :: body, by simp [hbody, Ne.symm hc], rfl⟩

theorem visibility_of_read (h : visibility? cs = some s) : ∃ v, Visibility v ∧ cs = v ++ s := by
  obtain ⟨rest, hpub, hrest⟩ := Option.bind_eq_some_iff.1 h
  obtain rfl := after?_eq_some.1 hpub
  split at hrest
  · rename_i scope
    obtain ⟨behind, hstop, hgap⟩ := Option.bind_eq_some_iff.1 hrest
    obtain ⟨body, hbody, rfl⟩ := split_of_afterStop? hstop
    obtain ⟨gap, hblanks, rfl⟩ := blanks_of_afterBlanks? hgap
    exact ⟨_, .within hbody hblanks, by simp⟩
  · obtain ⟨gap, hblanks, rfl⟩ := blanks_of_afterBlanks? hrest
    exact ⟨_, .plain hblanks, by simp⟩

theorem qualifier_of_read (h : qualifier? words cs = some s) :
    ∃ word gap, word ∈ words ∧ Blanks gap ∧ cs = word.toList ++ gap ++ s := by
  obtain ⟨word, hword, hread⟩ := List.exists_of_findSome?_eq_some h
  obtain ⟨rest, hafter, hgap⟩ := Option.bind_eq_some_iff.1 hread
  obtain rfl := after?_eq_some.1 hafter
  obtain ⟨gap, hblanks, rfl⟩ := blanks_of_afterBlanks? hgap
  exact ⟨word, gap, hword, hblanks, by simp⟩

theorem qualifiers_of_read (words : List String) (cs : List Char) :
    ∃ q, Qualifiers words q ∧ cs = q ++ skipQualifiers words cs := by
  have hfuel : ∀ fuel cs, ∃ q, Qualifiers words q ∧ cs = q ++ afterQualifiers words fuel cs := by
    intro fuel
    induction fuel with
    | zero => exact fun cs => ⟨[], .nil, rfl⟩
    | succ fuel ih =>
      intro cs
      cases hread : qualifier? words cs with
      | none => exact ⟨[], .nil, by simp [afterQualifiers, hread]⟩
      | some rest =>
        obtain ⟨word, gap, hword, hblanks, hcs⟩ := qualifier_of_read hread
        obtain ⟨q, hq, hrest⟩ := ih rest
        refine ⟨word.toList ++ gap ++ q, .cons hword hblanks hq, ?_⟩
        simp only [afterQualifiers, hread]
        rw [List.append_assoc, ← hrest, ← hcs]
  exact hfuel cs.length cs

theorem interface_of_read (h : interface? cs = some s) : ∃ i, Interface i ∧ cs = i ++ s := by
  obtain ⟨rest, hforeign, rfl⟩ := Option.map_eq_some_iff.1 h
  obtain ⟨behind, hafter, hgap⟩ := Option.bind_eq_some_iff.1 hforeign
  obtain rfl := after?_eq_some.1 hafter
  obtain ⟨gap, hblanks, rfl⟩ := blanks_of_afterBlanks? hgap
  cases hname : interfaceName? rest with
  | none => exact ⟨_, .plain hblanks, by simp⟩
  | some s =>
    unfold interfaceName? at hname
    split at hname
    · obtain ⟨behind, hstop, hgap'⟩ := Option.bind_eq_some_iff.1 hname
      obtain ⟨name, hno, rfl⟩ := split_of_afterStop? hstop
      obtain ⟨gap', hblanks', rfl⟩ := blanks_of_afterBlanks? hgap'
      exact ⟨_, .named hblanks hno hblanks', by simp⟩
    · simp at hname

theorem exists_front (line : List Char) : ∃ front, Front front ∧ line = front ++ fromKeyword line := by
  obtain ⟨blanks, hline, hblanks⟩ := trimStart_spec line
  have hvisible : ∃ v, Visibility v ∧
      trimStart line = v ++ (visibility? (trimStart line)).getD (trimStart line) := by
    cases h : visibility? (trimStart line) with
    | none => exact ⟨[], .none, rfl⟩
    | some s => exact visibility_of_read h
  obtain ⟨v, hv, htrim⟩ := hvisible
  obtain ⟨q, hq, hleading⟩ := qualifiers_of_read leadingQualifiers
    ((visibility? (trimStart line)).getD (trimStart line))
  generalize hrest : skipQualifiers leadingQualifiers
    ((visibility? (trimStart line)).getD (trimStart line)) = rest at hleading
  have hinterface : ∃ i, Interface i ∧ rest = i ++ (interface? rest).getD rest := by
    cases h : interface? rest with
    | none => exact ⟨[], .none, rfl⟩
    | some s => exact interface_of_read h
  obtain ⟨i, hi, hnative⟩ := hinterface
  obtain ⟨t, ht, htrailing⟩ := qualifiers_of_read trailingQualifiers ((interface? rest).getD rest)
  refine ⟨_, .intro hblanks hv hq hi ht, ?_⟩
  have hfrom : fromKeyword line = skipQualifiers trailingQualifiers ((interface? rest).getD rest) := by
    rw [fromKeyword_eq, fromQualifiers, hrest, fromInterface]
  rw [hfrom]
  simp only [List.append_assoc]
  rw [← htrailing, ← hnative, ← hleading, ← htrim]
  exact hline

end Read

/-! ## A front is read whole -/

/-- The first letters of keywords, of qualifiers and of `extern`. -/
def initials : List Char := ['a', 'c', 'd', 'e', 'f', 'i', 'm', 's', 't', 'u']

def Lettered (cs : List Char) : Prop := ∃ c ∈ initials, cs.head? = some c

section Complete

variable {cs s gap more : List Char} {words : List String} {k : Kind}

theorem Lettered.eq_cons (h : Lettered cs) : ∃ c rest, cs = c :: rest ∧ c ∈ initials := by
  obtain ⟨c, hc, hhead⟩ := h
  obtain ⟨rest, rfl⟩ := List.head?_eq_some_iff.1 hhead
  exact ⟨c, rest, rfl, hc⟩

theorem isBlank_of_mem_initials {c : Char} (h : c ∈ initials) : isBlank c = false := by
  have hall : (initials.all fun c => !isBlank c) = true := by decide
  simpa using List.all_eq_true.1 hall c h

theorem Lettered.trimStart (h : Lettered cs) : trimStart cs = cs := by
  obtain ⟨c, hc, hhead⟩ := h
  rw [trimStart_eq_self_iff]
  intro d hd
  rw [hhead] at hd
  obtain rfl := Option.some.inj hd
  exact isBlank_of_mem_initials hc

theorem Lettered.visibility (h : Lettered cs) : visibility? cs = none := by
  obtain ⟨c, rest, rfl, hc⟩ := h.eq_cons
  have hp : c ≠ 'p' := by
    rintro rfl
    simp [initials] at hc
  exact visibility?_none (by simp [after?, Ne.symm hp])

theorem Lettered.interfaceName (h : Lettered cs) : interfaceName? cs = none := by
  refine interfaceName?_none fun hquote => ?_
  obtain ⟨c, hc, hhead⟩ := h
  rw [hhead] at hquote
  obtain rfl := Option.some.inj hquote
  simp [initials] at hc

theorem afterBlanks?_append (hgap : Blanks gap) (h : trimStart s = s) :
    afterBlanks? (gap ++ s) = some s :=
  afterBlanks?_eq_some.2 ⟨gap, hgap.1, hgap.2, rfl, h⟩

theorem afterStop?_append {stop : Char} {body : List Char} (h : stop ∉ body) (s : List Char) :
    afterStop? stop (body ++ stop :: s) = some s := by
  induction body with
  | nil => simp [afterStop?]
  | cons c body ih =>
    have hc : c ≠ stop := by
      rintro rfl
      simp at h
    rw [List.cons_append, afterStop?, if_neg hc]
    exact ih fun hmem => h (by simp [hmem])

/-- Words that begin with one of the letters and have no blank in them. -/
def Plain (words : List String) : Prop :=
  ∀ w ∈ words, Lettered w.toList ∧ ∀ c ∈ w.toList, isBlank c = false

theorem Qualifiers.lettered {q : List Char} (hwords : Plain words) (hq : Qualifiers words q)
    (h : Lettered s) : Lettered (q ++ s) := by
  cases hq with
  | nil => exact h
  | cons hword _ _ =>
    obtain ⟨c, rest, hrest, hc⟩ := (hwords _ hword).1.eq_cons
    exact ⟨c, hc, by simp [hrest]⟩

theorem Interface.lettered {i : List Char} (hi : Interface i) (h : Lettered s) : Lettered (i ++ s) := by
  cases hi with
  | none => exact h
  | plain => exact ⟨'e', by decide, rfl⟩
  | named => exact ⟨'e', by decide, rfl⟩

/-- A word that a blank follows is the text up to the first blank. -/
theorem takeWhile_word {word : String} (hword : ∀ c ∈ word.toList, isBlank c = false)
    (hgap : Blanks gap) (more : List Char) :
    (word.toList ++ gap ++ more).takeWhile (fun c => !isBlank c) = word.toList := by
  obtain ⟨c, rest, rfl⟩ := List.exists_cons_of_ne_nil hgap.1
  rw [List.append_assoc, List.takeWhile_append_of_pos (by simpa using hword)]
  simp [hgap.2 c (by simp)]

theorem qualifier?_append {word : String} (hwords : Plain words) (hword : word ∈ words)
    (hgap : Blanks gap) (h : Lettered s) : qualifier? words (word.toList ++ gap ++ s) = some s := by
  have hread : (after? word.toList (word.toList ++ gap ++ s)).bind afterBlanks? = some s := by
    rw [after?_eq_some.2 (List.append_assoc _ _ _), Option.bind_some,
      afterBlanks?_append hgap h.trimStart]
  cases hq : qualifier? words (word.toList ++ gap ++ s) with
  | none =>
    have hnone := List.findSome?_eq_none_iff.1 hq word hword
    rw [hread] at hnone
    contradiction
  | some t =>
    -- another word would end at another blank
    obtain ⟨word', hword', hread'⟩ := List.exists_of_findSome?_eq_some hq
    obtain ⟨rest, hafter, hgap'⟩ := Option.bind_eq_some_iff.1 hread'
    obtain ⟨gap', hblanks', rfl⟩ := blanks_of_afterBlanks? hgap'
    have hsplit := after?_eq_some.1 hafter
    have hsame : word'.toList = word.toList := by
      rw [← takeWhile_word (hwords word hword).2 hgap s, hsplit, ← List.append_assoc,
        takeWhile_word (hwords word' hword').2 hblanks' t]
    rwa [hsame, hread, eq_comm] at hread'

theorem skipQualifiers_append {q : List Char} (hwords : Plain words) (hq : Qualifiers words q)
    (h : Lettered s) (hs : qualifier? words s = none) : skipQualifiers words (q ++ s) = s := by
  have hfuel : ∀ fuel, q.length ≤ fuel → afterQualifiers words fuel (q ++ s) = s := by
    induction hq with
    | nil =>
      intro fuel _
      cases fuel <;> simp [afterQualifiers, hs]
    | @cons word gap more hword hgap hmore ih =>
      intro fuel hlen
      have hpos := List.length_pos_iff.2 hgap.1
      simp only [List.length_append] at hlen
      cases fuel with
      | zero => omega
      | succ fuel =>
        have hread := qualifier?_append hwords hword hgap (hmore.lettered hwords h)
        rw [List.append_assoc (word.toList ++ gap), afterQualifiers, hread]
        exact ih fuel (by omega)
  exact hfuel _ (by simp)

theorem plain_of_all (h : (words.all fun w => initials.any (w.toList.head? == some ·) &&
    w.toList.all fun c => !isBlank c) = true) : Plain words := by
  intro w hw
  have hboth := List.all_eq_true.1 h w hw
  rw [Bool.and_eq_true, List.any_eq_true, List.all_eq_true] at hboth
  exact ⟨by simpa [Lettered] using hboth.1, by simpa using hboth.2⟩

theorem plain_leading : Plain leadingQualifiers := plain_of_all (by decide)

theorem plain_trailing : Plain trailingQualifiers := plain_of_all (by decide)

theorem Qualifiers.mono {words' : List String} {q : List Char} (hsub : words ⊆ words')
    (h : Qualifiers words q) : Qualifiers words' q := by
  induction h with
  | nil => exact .nil
  | cons hword hgap _ ih => exact .cons (hsub hword) hgap ih

theorem Qualifiers.append {q q' : List Char} (h : Qualifiers words q) (h' : Qualifiers words q') :
    Qualifiers words (q ++ q') := by
  induction h with
  | nil => exact h'
  | cons hword hgap _ ih =>
    rw [List.append_assoc]
    exact .cons hword hgap ih

theorem keyword?_eq_some : keyword? cs = some k ↔
    k ∈ Kind.declarations ∧ ∃ rest, cs = k.name.toList ++ rest ∧ endsWord rest = true := by
  constructor
  · intro h
    refine ⟨List.mem_of_find?_eq_some h, ?_⟩
    have hends := List.find?_some h
    cases hafter : after? k.name.toList cs with
    | none => simp [hafter] at hends
    | some rest => exact ⟨rest, after?_eq_some.1 hafter, by simpa [hafter] using hends⟩
  · intro hgiven
    obtain ⟨hk, rest, rfl, hends⟩ := hgiven
    cases k with
    | imports => simp [Kind.declarations] at hk
    | _ => simp [keyword?, Kind.declarations, Kind.name, after?, hends]

theorem lettered_of_keyword (h : keyword? s = some k) : Lettered s := by
  obtain ⟨hk, rest, rfl, -⟩ := keyword?_eq_some.1 h
  cases k with
  | imports => simp [Kind.declarations] at hk
  | _ => exact ⟨_, by decide, rfl⟩

/-- No qualifier and no interface begins where a keyword stands. -/
theorem nothing_at_keyword (h : keyword? s = some k) : qualifier? leadingQualifiers s = none ∧
    qualifier? trailingQualifiers s = none ∧ after? "extern".toList s = none := by
  obtain ⟨hk, rest, rfl, -⟩ := keyword?_eq_some.1 h
  cases k with
  | imports => simp [Kind.declarations] at hk
  | _ => exact ⟨rfl, rfl, rfl⟩

theorem skipQualifiers_interface {q : List Char} (hq : Qualifiers leadingQualifiers q)
    (cs : List Char) : skipQualifiers leadingQualifiers (q ++ ("extern".toList ++ cs)) =
      "extern".toList ++ cs :=
  skipQualifiers_append plain_leading hq ⟨'e', by decide, rfl⟩ rfl

theorem after_interface (hgap : Blanks gap) (h : trimStart s = s) :
    (after? "extern".toList ("extern".toList ++ (gap ++ s))).bind afterBlanks? = some s := by
  rw [after?_eq_some.2 rfl, Option.bind_some, afterBlanks?_append hgap h]

theorem fromQualifiers_append {q i t : List Char} (hq : Qualifiers leadingQualifiers q)
    (hi : Interface i) (ht : Qualifiers trailingQualifiers t) (h : keyword? s = some k) :
    fromQualifiers (q ++ (i ++ (t ++ s))) = s := by
  obtain ⟨hleading, htrailing, hforeign⟩ := nothing_at_keyword h
  have hs := lettered_of_keyword h
  have hts : Lettered (t ++ s) := ht.lettered plain_trailing hs
  have hskip := skipQualifiers_append plain_trailing ht hs htrailing
  cases hi with
  | none =>
    -- the second run of qualifiers is read with the first
    have hboth : Qualifiers leadingQualifiers (q ++ t) := hq.append (ht.mono (by decide))
    rw [List.nil_append, ← List.append_assoc, fromQualifiers,
      skipQualifiers_append plain_leading hboth hs hleading, fromInterface_none (by rw [hforeign]; rfl),
      skipQualifiers_of_none htrailing]
  | @plain gap hgap =>
    rw [fromQualifiers, List.append_assoc, skipQualifiers_interface hq,
      fromInterface_some (after_interface hgap hts.trimStart), hts.interfaceName, Option.getD_none, hskip]
  | @named gap name gap' hgap hname hgap' =>
    have hread : interfaceName? ('"' :: name ++ '"' :: (gap' ++ (t ++ s))) = some (t ++ s) := by
      rw [List.cons_append, interfaceName?, afterStop?_append hname, Option.bind_some,
        afterBlanks?_append hgap' hts.trimStart]
    have htext : "extern".toList ++ gap ++ '"' :: name ++ '"' :: gap' ++ (t ++ s) =
        "extern".toList ++ (gap ++ ('"' :: name ++ '"' :: (gap' ++ (t ++ s)))) := by simp
    rw [fromQualifiers, htext, skipQualifiers_interface hq, fromInterface_some (after_interface hgap rfl),
      hread, Option.getD_some, hskip]

theorem visibility_append {v : List Char} (hv : Visibility v) (h : Lettered s) :
    trimStart (v ++ s) = v ++ s ∧ (visibility? (v ++ s)).getD (v ++ s) = s := by
  cases hv with
  | none => exact ⟨h.trimStart, by rw [List.nil_append, h.visibility, Option.getD_none]⟩
  | @plain gap hgap =>
    have hpub : after? "pub".toList ("pub".toList ++ gap ++ s) = some (gap ++ s) :=
      after?_eq_some.2 (List.append_assoc _ _ _)
    obtain ⟨c, rest, rfl⟩ := List.exists_cons_of_ne_nil hgap.1
    have hparen : (c :: rest ++ s).head? ≠ some '(' := by
      intro heq
      obtain rfl : c = '(' := by simpa using heq
      exact absurd (hgap.2 '(' (by simp)) (by decide)
    exact ⟨rfl, by rw [visibility?_plain hpub hparen, afterBlanks?_append hgap h.trimStart,
      Option.getD_some]⟩
  | @within scope gap hscope hgap =>
    have hpub : after? "pub".toList ("pub".toList ++ '(' :: scope ++ ')' :: gap ++ s) =
        some ('(' :: (scope ++ ')' :: (gap ++ s))) := after?_eq_some.2 (by simp)
    exact ⟨rfl, by rw [visibility?_scope hpub, afterStop?_append hscope, Option.bind_some,
      afterBlanks?_append hgap h.trimStart, Option.getD_some]⟩

/-- Behind a front a keyword is found. -/
theorem fromKeyword_append {front : List Char} (hfront : Front front) (h : keyword? s = some k) :
    fromKeyword (front ++ s) = s := by
  obtain @⟨blanks, v, q, i, t, hblanks, hv, hq, hi, ht⟩ := hfront
  have hts := ht.lettered plain_trailing (lettered_of_keyword h)
  have hits := hi.lettered hts
  obtain ⟨htrim, hvisible⟩ := visibility_append hv (hq.lettered plain_leading hits)
  have htext : blanks ++ (v ++ (q ++ (i ++ t))) ++ s = blanks ++ (v ++ (q ++ (i ++ (t ++ s)))) := by
    simp only [List.append_assoc]
  rw [htext, fromKeyword_eq, trimStart_append hblanks, htrim, hvisible,
    fromQualifiers_append hq hi ht h]

theorem fromKeyword_eq_drop_iff {text : List Char} {i : Nat} (h : keyword? (text.drop i) = some k) :
    fromKeyword text = text.drop i ↔ Front (text.take i) := by
  constructor
  · intro hfrom
    obtain ⟨front, hfront, htext⟩ := exists_front text
    rw [hfrom] at htext
    rwa [List.append_cancel_right ((List.take_append_drop i text).trans htext)]
  · intro hfront
    have hfrom := fromKeyword_append hfront h
    rwa [List.take_append_drop] at hfrom

end Complete

/-! ## Lines with a declaration -/

def keywords : List String := ["fn", "struct", "impl", "enum", "trait", "mod"]

/-- A line is a front, the keyword of a kind at a byte offset, and then its end or a character of no
word. -/
def Declares (line : List Char) (offset : Nat) (kind : Kind) : Prop :=
  ∃ (front : List Char) (word : String) (rest : List Char),
    line = front ++ (word.toList ++ rest) ∧ Front front ∧ offset = Utf8.byteLength front ∧
      word ∈ keywords ∧ Kind.ofKeyword? word.toList = some kind ∧
      ∀ c, rest.head? = some c → isWordChar c = false

section Declared

variable {line cs : List Char} {offset : Nat} {kind : Kind}

theorem endsWord_iff : endsWord cs = true ↔ ∀ c, cs.head? = some c → isWordChar c = false := by
  cases cs <;> simp [endsWord]

theorem ofKeyword?_eq_some {word : List Char} : Kind.ofKeyword? word = some kind ↔
    kind ∈ Kind.declarations ∧ word = kind.name.toList := by
  constructor
  · intro h
    have hname : kind.name.toList = word := by simpa using List.find?_some h
    exact ⟨List.mem_of_find?_eq_some h, hname.symm⟩
  · intro hgiven
    obtain ⟨hkind, rfl⟩ := hgiven
    cases kind with
    | imports => simp [Kind.declarations] at hkind
    | _ => decide

theorem name_mem_keywords (h : kind ∈ Kind.declarations) : kind.name ∈ keywords := by
  cases kind with
  | imports => simp [Kind.declarations] at h
  | _ => decide

theorem declares_of_find? (h : find? line = some (offset, kind)) : Declares line offset kind := by
  obtain ⟨front, hfront, hline⟩ := exists_front line
  obtain ⟨k, hk, hpair⟩ := Option.map_eq_some_iff.1 h
  generalize fromKeyword line = s at hline hk hpair
  obtain ⟨hkind, rest, rfl, hends⟩ := keyword?_eq_some.1 hk
  subst hline
  rw [Utf8.byteLength_append, Nat.add_sub_cancel] at hpair
  obtain ⟨rfl, rfl⟩ := Prod.mk.inj hpair
  exact ⟨front, k.name, rest, rfl, hfront, rfl, name_mem_keywords hkind,
    ofKeyword?_eq_some.2 ⟨hkind, rfl⟩, endsWord_iff.1 hends⟩

theorem find?_of_declares (h : Declares line offset kind) : find? line = some (offset, kind) := by
  obtain ⟨front, word, rest, rfl, hfront, rfl, -, hword, hends⟩ := h
  obtain ⟨hkind, hname⟩ := ofKeyword?_eq_some.1 hword
  have hkeyword : keyword? (word.toList ++ rest) = some kind :=
    keyword?_eq_some.2 ⟨hkind, rest, by rw [hname], endsWord_iff.2 hends⟩
  rw [find?, fromKeyword_append hfront hkeyword, hkeyword, Utf8.byteLength_append,
    Nat.add_sub_cancel, Option.map_some]

theorem find?_eq_some : find? line = some (offset, kind) ↔ Declares line offset kind :=
  ⟨declares_of_find?, find?_of_declares⟩

/-- Whatever it tries first, a search that is right about a line and gives up on it only if it has no
declaration finds this one. -/
theorem eq_find?_of_search {found : Option (Nat × Kind)}
    (hsound : ∀ offset kind, found = some (offset, kind) → Declares line offset kind)
    (hcomplete : found = none → ∀ offset kind, ¬ Declares line offset kind) : found = find? line := by
  cases hfound : found with
  | some place => exact (find?_of_declares (hsound place.1 place.2 hfound)).symm
  | none =>
    cases hfind : find? line with
    | none => rfl
    | some place => exact absurd (declares_of_find? hfind) (hcomplete hfound place.1 place.2)

end Declared

/-- A declaration is found exactly in the lines that have one, and a line has no two: however it is
read, the keyword stands at the same offset and is the same. So every search that finds declarations
only, and one in each line that has one, finds these. -/
theorem found_iff_declared (line : List Char) :
    (∀ offset kind, find? line = some (offset, kind) ↔ Declares line offset kind) ∧
    (∀ offset offset' kind kind', Declares line offset kind → Declares line offset' kind' →
      offset = offset' ∧ kind = kind') ∧
    ∀ found : Option (Nat × Kind),
      (∀ offset kind, found = some (offset, kind) → Declares line offset kind) →
      (found = none → ∀ offset kind, ¬ Declares line offset kind) → found = find? line := by
  refine ⟨fun _ _ => find?_eq_some, fun offset offset' kind kind' h h' => ?_,
    fun _ => eq_find?_of_search⟩
  have hsame : some (offset, kind) = some (offset', kind') :=
    (find?_of_declares h).symm.trans (find?_of_declares h')
  exact Prod.mk.inj (Option.some.inj hsame)

/-- Offsets count bytes, of which `é` has two. -/
theorem found_iff_declared_behind_scope :
    let line := "\tpub(in é) async extern \"C\" unsafe fn f()".toList
    Declares line 36 .fn ∧ find? line = some (36, .fn) ∧
      ∀ offset kind, Declares line offset kind → offset = 36 ∧ kind = .fn := by
  intro line
  have hblanks : ∀ c ∈ ['\t'], isBlank c = true := List.forall_mem_singleton.2 (by decide)
  have hgap : Blanks [' '] := ⟨by decide, List.forall_mem_singleton.2 (by decide)⟩
  have hvisible : Visibility "pub(in é) ".toList := .within (by decide : ')' ∉ "in é".toList) hgap
  have hleading : Qualifiers leadingQualifiers "async ".toList :=
    .cons (by decide : "async" ∈ leadingQualifiers) hgap .nil
  have hnative : Interface "extern \"C\" ".toList := .named hgap (by decide : '"' ∉ ['C']) hgap
  have htrailing : Qualifiers trailingQualifiers "unsafe ".toList :=
    .cons (by decide : "unsafe" ∈ trailingQualifiers) hgap .nil
  have hfront := Front.intro hblanks hvisible hleading hnative htrailing
  have hdeclares : Declares line 36 .fn :=
    ⟨_, "fn", " f()".toList, by decide, hfront, by decide, by decide, by decide,
      endsWord_iff.1 (by decide)⟩
  obtain ⟨hfound, honce, -⟩ := found_iff_declared line
  exact ⟨hdeclares, (hfound 36 .fn).2 hdeclares, fun _ _ h => honce _ _ _ _ h hdeclares⟩

end CodeFolding.Declaration
