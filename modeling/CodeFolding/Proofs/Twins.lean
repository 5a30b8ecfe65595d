import Mathlib.Data.List.Forall2
import CodeFolding.Proofs.DeclarationParts
import CodeFolding.Region.Blocks

/-!
Rows that differ only inside comments and literals.

Roles decide which characters of such rows are live, and a live character is never next to one that
differs. The declaration of a row is found over its raw text, though: the end of a scope and of an
interface's name may stand inside a comment or a literal. Rows whose closing parentheses and double
quotes stand at the same places are read alike.
-/

set_option autoImplicit false

namespace CodeFolding

/-- Rows with the same roles, whose characters differ only inside comments and literals, and there
as `E` allows. -/
structure Row.Twin (E : Char → Char → Prop) (r r' : Row) : Prop where
  roles : r.cells.map (·.role) = r'.cells.map (·.role)
  chars : ∀ i c c', r.text[i]? = some c → r'.text[i]? = some c' →
    c = c' ∨ (r.Inside i ∧ r'.Inside i ∧ E c c')

/-- The ends of a scope and of an interface's name. -/
def SameStop (c d : Char) : Prop := (c = ')' ↔ d = ')') ∧ (c = '"' ↔ d = '"')

/-- Two rows of texts, twins that have their stops at the same places. -/
structure Row.Pair (r r' : Row) : Prop where
  left : r.Read
  right : r'.Read
  twin : r.Twin SameStop r'

namespace Row

variable {r r' : Row} {i : Nat} {w s t : List Char}

theorem Read.length (hr : r.Read) : r.cells.length = r.text.length := by
  have := congrArg List.length (classify_chars r.before r.text)
  rwa [List.length_map, ← hr.cells] at this

theorem Pair.symm (h : r.Pair r') : r'.Pair r where
  left := h.right
  right := h.left
  twin := by
    refine ⟨h.twin.roles.symm, fun i c c' hc hc' => ?_⟩
    rcases h.twin.chars i c' c hc' hc with he | ⟨hin, hin', hp, hq⟩
    · exact .inl he.symm
    · exact .inr ⟨hin', hin, hp.symm, hq.symm⟩

theorem Pair.length (h : r.Pair r') : r.text.length = r'.text.length := by
  have := congrArg List.length h.twin.roles
  simpa [h.left.length, h.right.length] using this

theorem Pair.live_iff (h : r.Pair r') (i : Nat) : r.Live i ↔ r'.Live i := by
  rw [live_iff_role, live_iff_role, ← List.getElem?_map, ← List.getElem?_map, h.twin.roles]

theorem Pair.get_eq (h : r.Pair r') (hin : ¬ r.Inside i) : r.text[i]? = r'.text[i]? := by
  cases hc : r.text[i]? with
  | none =>
    rw [List.getElem?_eq_none_iff, h.length] at hc
    rw [List.getElem?_eq_none_iff.2 hc]
  | some c =>
    have hlt := (List.getElem?_eq_some_iff.1 hc).1
    rw [h.length] at hlt
    rcases h.twin.chars i c r'.text[i] hc (List.getElem?_eq_getElem hlt) with he | ⟨hin', -⟩
    · rw [he, List.getElem?_eq_getElem hlt]
    · exact absurd hin' hin

theorem Pair.get_of_code (h : r.Pair r') (hcode : r.mode i = .code) :
    r.text[i]? = r'.text[i]? := h.get_eq (not_inside_of_code hcode)

theorem Pair.get_of_live (h : r.Pair r') (hlive : r.Live i) :
    r.text[i]? = r'.text[i]? ∧ r.text[i + 1]? = r'.text[i + 1]? :=
  ⟨h.get_of_code (hlive.mode h.left).1, h.get_of_code (hlive.mode h.left).2⟩

theorem Pair.get_before_live (h : r.Pair r') (hlive : r.Live (i + 1)) :
    r.text[i]? = r'.text[i]? := by
  obtain ⟨c, hc⟩ := hlive.char h.left
  have hlt : i < r.text.length := by
    have := (List.getElem?_eq_some_iff.1 hc).1
    omega
  rcases h.left.live_or_fence (List.getElem?_eq_getElem hlt) (hlive.mode h.left).1 with hl | ⟨-, hin⟩
  · exact (h.get_of_live hl).1
  · exact h.get_eq hin

theorem Pair.stop_iff (h : r.Pair r') {stop : Char} (hstop : stop = ')' ∨ stop = '"') (i : Nat) :
    r.text[i]? = some stop ↔ r'.text[i]? = some stop := by
  have hone : ∀ {q q' : Row}, q.Pair q' → q.text[i]? = some stop → q'.text[i]? = some stop := by
    intro q q' hq hc
    have hlt := (List.getElem?_eq_some_iff.1 hc).1
    rw [hq.length] at hlt
    have hc' := List.getElem?_eq_getElem hlt
    rcases hq.twin.chars i stop _ hc hc' with he | ⟨-, -, hp, hd⟩
    · rw [hc', ← he]
    · rcases hstop with rfl | rfl
      · rw [hc', hp.1 rfl]
      · rw [hc', hd.1 rfl]
  exact ⟨hone h, hone h.symm⟩

def Sync (r r' : Row) (i : Nat) : Prop := r.mode i = .code ∧ r'.mode i = .code

theorem Pair.sync_of_live (h : r.Pair r') (hlive : r.Live i) : Sync r r' i :=
  ⟨(hlive.mode h.left).1, (((h.live_iff i).1 hlive).mode h.right).1⟩

theorem Read.quiet_code (hr : r.Read) (hcode : r.mode i = .code) (hw : r.text.drop i = w ++ s)
    (hq : quiet none w = true) :
    r.mode (i + w.length) = .code ∧ ∀ k < w.length, r.Live (i + k) := by
  obtain ⟨hmode, hlive⟩ := hr.over_quiet (by simp [hcode, Mode.Settled]) hw hq (by simp)
  exact ⟨hmode.trans hcode, hlive hcode⟩

theorem Pair.front (h : r.Pair r') {c : Char} (hcode : r.mode i = .code)
    (hq : quiet none w = true) (hw : w ++ [c] <+: r.text.drop i) :
    w ++ [c] <+: r'.text.drop i := by
  obtain ⟨s, hs⟩ := hw
  rw [List.append_assoc] at hs
  obtain ⟨hend, hlive⟩ := h.left.quiet_code hcode hs.symm hq
  have hsame : ∀ k < w.length + 1, r.text[i + k]? = r'.text[i + k]? := by
    intro k hk
    by_cases he : k = w.length
    · rw [he]
      exact h.get_of_code hend
    · exact (h.get_of_live (hlive k (by omega))).1
  have htake : (r.text.drop i).take (w.length + 1) = (r'.text.drop i).take (w.length + 1) := by
    refine List.ext_getElem? fun k => ?_
    simp only [List.getElem?_take, List.getElem?_drop]
    split
    · exact hsame k ‹_›
    · rfl
  have hleft : w ++ [c] = (r.text.drop i).take (w.length + 1) := by
    rw [← hs, ← List.append_assoc]
    exact (List.take_left' (by simp)).symm
  rw [hleft, htake]
  exact List.take_prefix _ _

theorem Pair.alike (h : r.Pair r') (hs : Sync r r' i) : Alike (r.text.drop i) (r'.text.drop i) where
  length := by simp [h.length]
  front w c hw := ⟨h.front hs.1 hw, h.symm.front hs.2 hw⟩

/-- Over the same quiet text both rows stay in code. -/
theorem Pair.move (h : r.Pair r') (hs : Sync r r' i) (hq : quiet none w = true)
    (hc : r.text.drop i = w ++ s) (hd : r'.text.drop i = w ++ t) :
    Sync r r' (i + w.length) ∧ s = r.text.drop (i + w.length) ∧
      t = r'.text.drop (i + w.length) := by
  refine ⟨⟨(h.left.quiet_code hs.1 hc hq).1, (h.right.quiet_code hs.2 hd hq).1⟩, ?_, ?_⟩
  · rw [← List.drop_drop, hc, List.drop_left]
  · rw [← List.drop_drop, hd, List.drop_left]

end Row

namespace Row

open Declaration

variable {r r' : Row} {i : Nat} {s : List Char} {stop : Char} {words : List String}

/-- A place inside a comment or a literal that lasts over quiet text. -/
def Shut (r : Row) (i : Nat) : Prop := (r.mode i).Settled ∧ r.mode i ≠ .code

/-- A text that begins with a live character of the row. -/
def LiveFrom (r : Row) (cs : List Char) : Prop := ∃ j, cs = r.text.drop j ∧ r.Live j

theorem Read.liveFrom_drop (hr : r.Read) : r.LiveFrom (r.text.drop i) ↔ r.Live i := by
  refine ⟨?_, fun h => ⟨i, rfl, h⟩⟩
  intro hgiven
  obtain ⟨j, hj, hlive⟩ := hgiven
  obtain ⟨c, hc⟩ := hlive.char hr
  have hlt := (List.getElem?_eq_some_iff.1 hc).1
  have hlen := congrArg List.length hj
  simp only [List.length_drop] at hlen
  obtain rfl : i = j := by omega
  exact hlive

theorem Shut.not_liveFrom (h : r.Shut i) (hr : r.Read) : ¬ r.LiveFrom (r.text.drop i) := by
  rw [hr.liveFrom_drop]
  exact fun hlive => h.2 (hlive.mode hr).1

theorem Shut.over_quiet (h : r.Shut i) (hr : r.Read) {w : List Char}
    (hq : quiet none w = true) (hw : r.text.drop i = w ++ s) :
    s = r.text.drop (i + w.length) ∧ r.Shut (i + w.length) := by
  have hmode := (hr.over_quiet h.1 hw hq (by simp)).1
  exact ⟨by rw [← List.drop_drop, hw, List.drop_left], by rwa [Shut, hmode]⟩

theorem Shut.reads (h : r.Shut i) (hr : r.Read) {f : List Char → Option (List Char)}
    (hf : ReadsAlike f) (hs : f (r.text.drop i) = some s) : ∃ j, s = r.text.drop j ∧ r.Shut j := by
  obtain ⟨w, t, hw, hcs, -⟩ := hf (.refl _) hs
  exact ⟨_, h.over_quiet hr hw hcs⟩

theorem Shut.skip (h : r.Shut i) (hr : r.Read) (hwords : ∀ w ∈ words, quiet none w.toList = true) :
    ∃ j, skipQualifiers words (r.text.drop i) = r.text.drop j ∧ r.Shut j := by
  obtain ⟨w, s, t, hw, hcs, -, hs, -⟩ := skipQualifiers_alike hwords (.refl (r.text.drop i))
  rw [hs]
  exact ⟨_, h.over_quiet hr hw hcs⟩

theorem Shut.name (h : r.Shut i) (hr : r.Read) (hs : interfaceName? (r.text.drop i) = some s) :
    ∃ j, s = r.text.drop j ∧ r.Shut j := by
  cases hc : r.text[i]? with
  | none =>
    rw [List.drop_of_length_le (List.getElem?_eq_none_iff.1 hc)] at hs
    simp [interfaceName?] at hs
  | some c =>
    rw [drop_of_get hc] at hs
    unfold interfaceName? at hs
    split at hs
    · rename_i rest hrest
      obtain ⟨rfl, rfl⟩ := List.cons.inj hrest
      obtain ⟨t, ht, hs⟩ := Option.bind_eq_some_iff.1 hs
      obtain ⟨k, hik, hk, hno, rfl⟩ := afterStop?_drop.1 ht
      have hshut : r.Shut (k + 1) :=
        hr.closed_quote h.1 h.2 hc (by omega) hk fun l hl hl' => hno l (by omega) hl'
      exact hshut.reads hr readsAlike_afterBlanks hs
    · simp at hs

theorem Shut.interface (h : r.Shut i) (hr : r.Read) :
    ¬ r.LiveFrom (fromInterface (r.text.drop i)) := by
  have hskip : ∀ j, r.Shut j → ¬ r.LiveFrom (skipQualifiers trailingQualifiers (r.text.drop j)) := by
    intro j hj
    obtain ⟨k, hk, hshut⟩ := hj.skip hr quiet_trailing
    rw [hk]
    exact hshut.not_liveFrom hr
  cases hx : (after? "extern".toList (r.text.drop i)).bind afterBlanks? with
  | none =>
    rw [fromInterface_none hx]
    exact hskip i h
  | some rest =>
    obtain ⟨j, rfl, hj⟩ := h.reads hr readsAlike_foreign hx
    rw [fromInterface_some hx]
    cases hname : interfaceName? (r.text.drop j) with
    | none => exact hskip j hj
    | some s =>
      obtain ⟨k, rfl, hk⟩ := hj.name hr hname
      exact hskip k hk

theorem Shut.qualifiers (h : r.Shut i) (hr : r.Read) :
    ¬ r.LiveFrom (fromQualifiers (r.text.drop i)) := by
  obtain ⟨j, hj, hshut⟩ := h.skip hr quiet_leading
  rw [fromQualifiers, hj]
  exact hshut.interface hr

/-- What is left of two rows from one place on, where both are in code. -/
def Lands (r r' : Row) (cs ds : List Char) : Prop :=
  ∃ j, Sync r r' j ∧ cs = r.text.drop j ∧ ds = r'.text.drop j

theorem Pair.reads (h : r.Pair r') (hs : Sync r r' i) {f : List Char → Option (List Char)}
    (hf : ReadsAlike f) (hcs : f (r.text.drop i) = some s) :
    ∃ t, f (r'.text.drop i) = some t ∧ r.Lands r' s t := by
  obtain ⟨w, t, hw, hc, hd, ht⟩ := hf (h.alike hs) hcs
  exact ⟨t, ht, _, h.move hs hw hc hd⟩

theorem Pair.skip (h : r.Pair r') (hs : Sync r r' i)
    (hwords : ∀ w ∈ words, quiet none w.toList = true) :
    r.Lands r' (skipQualifiers words (r.text.drop i)) (skipQualifiers words (r'.text.drop i)) := by
  obtain ⟨w, s, t, hw, hc, hd, rfl, rfl⟩ := skipQualifiers_alike hwords (h.alike hs)
  exact ⟨_, h.move hs hw hc hd⟩

/-- A blank behind a place in code is live, so the other row is in code there too. -/
theorem Pair.sync_of_blank (h : r.Pair r') (hcode : r.mode i = .code)
    (hs : afterBlanks? (r.text.drop i) = some s) : Sync r r' i := by
  obtain ⟨blanks, hne, hblanks, hcs, -⟩ := afterBlanks?_eq_some.1 hs
  have hlive := (h.left.quiet_code hcode hcs (quiet_blanks hblanks)).2 0
    (List.length_pos_iff.2 hne)
  exact h.sync_of_live hlive

/-- Text up to a stop, and the blanks behind it, lead both rows to code or the first into a comment
or a literal. -/
theorem Pair.enclosed (h : r.Pair r') (hstop : stop = ')' ∨ stop = '"')
    (hs : (afterStop? stop (r.text.drop i)).bind afterBlanks? = some s) :
    (∃ t, (afterStop? stop (r'.text.drop i)).bind afterBlanks? = some t ∧ r.Lands r' s t) ∨
      ∃ j, s = r.text.drop j ∧ r.Shut j := by
  obtain ⟨a, ha, hs⟩ := Option.bind_eq_some_iff.1 hs
  obtain ⟨k, hik, hk, hno, rfl⟩ := afterStop?_drop.1 ha
  have hother : afterStop? stop (r'.text.drop i) = some (r'.text.drop (k + 1)) :=
    afterStop?_drop.2 ⟨k, hik, (h.stop_iff hstop k).1 hk,
      fun l hl hl' hc => hno l hl hl' ((h.stop_iff hstop l).2 hc), rfl⟩
  have hsettled : (r.mode (k + 1)).Settled := by
    rw [h.left.mode_succ hk]
    exact Mode.settled_of_stop (h.left.sound_cons hk) hstop
  by_cases hcode : r.mode (k + 1) = .code
  · obtain ⟨t, ht, hlands⟩ := h.reads (h.sync_of_blank hcode hs) readsAlike_afterBlanks hs
    exact .inl ⟨t, by simp [hother, ht], hlands⟩
  · exact .inr (Shut.reads ⟨hsettled, hcode⟩ h.left readsAlike_afterBlanks hs)

theorem Pair.interface (h : r.Pair r') (hs : Sync r r' i)
    (hkey : keyword? (fromInterface (r.text.drop i)) ≠ none)
    (hlive : r.LiveFrom (fromInterface (r.text.drop i))) :
    r.Lands r' (fromInterface (r.text.drop i)) (fromInterface (r'.text.drop i)) := by
  cases hx : (after? "extern".toList (r.text.drop i)).bind afterBlanks? with
  | none =>
    rw [fromInterface_none hx, fromInterface_none (readsAlike_foreign.eq_none (h.alike hs) hx)]
    exact h.skip hs quiet_trailing
  | some rest =>
    obtain ⟨_, hx', j, hj, rfl, rfl⟩ := h.reads hs readsAlike_foreign hx
    rw [fromInterface_some hx] at hkey hlive ⊢
    rw [fromInterface_some hx']
    by_cases hquote : r.text[j]? = some '"'
    · have hquote' : r'.text[j]? = some '"' := by rw [← h.get_of_code hj.1, hquote]
      rw [drop_of_get hquote] at hkey hlive ⊢
      rw [drop_of_get hquote']
      simp only [interfaceName?] at hkey hlive ⊢
      cases hstop : (afterStop? '"' (r.text.drop (j + 1))).bind afterBlanks? with
      | none =>
        rw [hstop, Option.getD_none, keyword?_of_quote] at hkey
        exact absurd rfl hkey
      | some s =>
        rcases h.enclosed (.inr rfl) hstop with ⟨_, hstop', k, hk, rfl, rfl⟩ | ⟨k, rfl, hk⟩
        · rw [hstop']
          exact h.skip hk quiet_trailing
        · rw [hstop, Option.getD_some] at hlive
          obtain ⟨l, hl, hshut⟩ := hk.skip h.left quiet_trailing
          rw [hl] at hlive
          exact absurd hlive (hshut.not_liveFrom h.left)
    · have hquote' : r'.text[j]? ≠ some '"' := by rwa [← h.get_of_code hj.1]
      rw [interfaceName?_none (by rwa [List.head?_drop]),
        interfaceName?_none (by rwa [List.head?_drop])]
      exact h.skip hj quiet_trailing

theorem Pair.qualifiers (h : r.Pair r') (hs : Sync r r' i)
    (hkey : keyword? (fromQualifiers (r.text.drop i)) ≠ none)
    (hlive : r.LiveFrom (fromQualifiers (r.text.drop i))) :
    r.Lands r' (fromQualifiers (r.text.drop i)) (fromQualifiers (r'.text.drop i)) := by
  obtain ⟨j, hj, hcs, hds⟩ := h.skip hs quiet_leading
  unfold fromQualifiers at hkey hlive ⊢
  rw [hcs] at hkey hlive ⊢
  rw [hds]
  exact h.interface hj hkey hlive

theorem Pair.visibility (h : r.Pair r') (hs : Sync r r' i)
    (hkey : keyword? (fromQualifiers ((visibility? (r.text.drop i)).getD (r.text.drop i))) ≠ none)
    (hlive : r.LiveFrom (fromQualifiers ((visibility? (r.text.drop i)).getD (r.text.drop i)))) :
    r.Lands r' (fromQualifiers ((visibility? (r.text.drop i)).getD (r.text.drop i)))
      (fromQualifiers ((visibility? (r'.text.drop i)).getD (r'.text.drop i))) := by
  have hpub : ReadsAlike (after? "pub".toList) := readsAlike_after (by decide)
  cases hx : after? "pub".toList (r.text.drop i) with
  | none =>
    rw [visibility?_none hx, Option.getD_none] at hkey hlive ⊢
    rw [visibility?_none (hpub.eq_none (h.alike hs) hx), Option.getD_none]
    exact h.qualifiers hs hkey hlive
  | some rest =>
    -- a `pub` that is no visibility leaves no keyword
    have hsome : visibility? (r.text.drop i) ≠ none := by
      intro hnone
      rw [hnone, Option.getD_none, after?_eq_some.1 hx] at hkey
      exact hkey (keyword?_of_idle (c := 'p') (by simp) _)
    obtain ⟨s, hvis⟩ := Option.ne_none_iff_exists'.1 hsome
    obtain ⟨_, hx', j, hj, rfl, rfl⟩ := h.reads hs hpub hx
    have hland : (∃ t, visibility? (r'.text.drop i) = some t ∧ r.Lands r' s t) ∨
        ∃ k, s = r.text.drop k ∧ r.Shut k := by
      by_cases hparen : r.text[j]? = some '('
      · have hparen' : r'.text[j]? = some '(' := by rw [← h.get_of_code hj.1, hparen]
        rw [drop_of_get hparen] at hx
        rw [drop_of_get hparen'] at hx'
        rw [visibility?_scope hx] at hvis
        rw [visibility?_scope hx']
        exact h.enclosed (.inl rfl) hvis
      · have hparen' : r'.text[j]? ≠ some '(' := by rwa [← h.get_of_code hj.1]
        rw [visibility?_plain hx (by rwa [List.head?_drop])] at hvis
        rw [visibility?_plain hx' (by rwa [List.head?_drop])]
        exact .inl (h.reads hj readsAlike_afterBlanks hvis)
    rw [hvis, Option.getD_some] at hkey hlive ⊢
    rcases hland with ⟨_, ht, k, hk, rfl, rfl⟩ | ⟨k, rfl, hk⟩
    · rw [ht, Option.getD_some]
      exact h.qualifiers hk hkey hlive
    · exact absurd hlive (hk.qualifiers h.left)

/-- A row that begins with a comment or a literal has no declaration. -/
theorem Pair.sync_start (h : r.Pair r') (hcode : r.mode 0 = .code)
    (hkey : keyword? (fromKeyword r.text) ≠ none) : Sync r r' 0 := by
  cases hc : r.text[0]? with
  | none =>
    have hlen := List.getElem?_eq_none_iff.1 hc
    rw [List.eq_nil_of_length_eq_zero (Nat.le_zero.1 hlen)] at hkey
    exact absurd rfl hkey
  | some c =>
    rcases h.left.live_or_opens hc hcode with hl | hopens
    · exact h.sync_of_live hl
    · have htext := drop_of_get hc
      rw [List.drop_zero] at htext
      have hplain : (visibility? (trimStart r.text)).getD (trimStart r.text) =
          c :: r.text.drop 1 := by
        rw [htext]
        simp only [Mode.fences, List.mem_cons, List.not_mem_nil, or_false] at hopens
        rcases hopens with rfl | rfl | rfl | rfl <;> rfl
      have hnone := keyword?_of_idle (List.mem_cons_of_mem 'p' hopens) (r.text.drop 1)
      rw [fromKeyword_eq, hplain, hnone] at hkey
      exact absurd rfl hkey

/-- A declaration with a live keyword is found at the same place in both rows. -/
theorem Pair.declaration (h : r.Pair r') (hs : Sync r r' 0)
    (hkey : keyword? (fromKeyword r.text) ≠ none) (hlive : r.LiveFrom (fromKeyword r.text)) :
    r.Lands r' (fromKeyword r.text) (fromKeyword r'.text) := by
  have halike := h.alike hs
  simp only [List.drop_zero] at halike
  obtain ⟨w, hw, hcs, hds⟩ := trimStart_alike halike
  obtain ⟨hmove, hc, hd⟩ := h.move hs hw (by simpa using hcs) (by simpa using hds)
  rw [fromKeyword_eq, hc] at hkey hlive ⊢
  rw [fromKeyword_eq r'.text, hd]
  exact h.visibility hmove hkey hlive

/-- The offset of a keyword is that of a live character if the text from it begins with one. -/
theorem Read.liveAt_keyword (hr : r.Read) (hkey : keyword? (fromKeyword r.text) ≠ none) :
    Cell.liveAt r.cells (Utf8.byteLength r.text - Utf8.byteLength (fromKeyword r.text)) = true ↔
      r.LiveFrom (fromKeyword r.text) := by
  obtain ⟨pre, hpre⟩ := fromKeyword_suffix r.text
  have htake : r.text.take pre.length = pre := by
    conv_lhs => rw [← hpre, List.take_left]
  have hdrop : r.text.drop pre.length = fromKeyword r.text := by
    conv_lhs => rw [← hpre, List.drop_left]
  have hlt : pre.length < r.text.length := by
    have hlen := congrArg List.length hpre
    have hpos : (fromKeyword r.text).length ≠ 0 := by
      intro hzero
      rw [List.eq_nil_of_length_eq_zero hzero] at hkey
      exact hkey rfl
    rw [List.length_append] at hlen
    omega
  have hoffset : Utf8.byteLength r.text - Utf8.byteLength (fromKeyword r.text) =
      Utf8.byteLength (r.text.take pre.length) := by
    have hsum := Utf8.byteLength_append pre (fromKeyword r.text)
    rw [hpre] at hsum
    rw [htake]
    omega
  rw [hoffset, hr.liveAt hlt, ← hdrop, hr.liveFrom_drop]

theorem Read.candidate?_eq_some (hr : r.Read) {n : Nat} {owned : Bool} {kw : Keyword} :
    Nesting.candidate? n owned r = some kw ↔ owned = false ∧ r.mode 0 = .code ∧ kw.line = n ∧
      keyword? (fromKeyword r.text) = some kw.kind ∧ r.LiveFrom (fromKeyword r.text) := by
  obtain ⟨line, kind⟩ := kw
  rw [mode_zero_eq_code]
  unfold Nesting.candidate? Declaration.find?
  cases owned with
  | true => simp
  | false =>
    cases hinert : r.before.isInert with
    | true => simp
    | false =>
      cases hkey : keyword? (fromKeyword r.text) with
      | none => simp
      | some k =>
        have hat := hr.liveAt_keyword (by simp [hkey])
        by_cases hlive : r.LiveFrom (fromKeyword r.text)
        · simp only [Option.map_some, hat.2 hlive, if_true, Option.some.injEq, Keyword.mk.injEq,
            hlive, and_true, true_and, Bool.or_false, Bool.false_eq_true, if_false]
          exact and_congr_left' eq_comm
        · simp [Bool.eq_false_iff.2 (mt hat.1 hlive), hlive]

theorem Pair.candidate (h : r.Pair r') (n : Nat) (owned : Bool) :
    Nesting.candidate? n owned r = Nesting.candidate? n owned r' := by
  have hone : ∀ {q q' : Row}, q.Pair q' → ∀ kw, Nesting.candidate? n owned q = some kw →
      Nesting.candidate? n owned q' = some kw := by
    intro q q' hq kw hkw
    obtain ⟨howned, hcode, hline, hkey, hlive⟩ := hq.left.candidate?_eq_some.1 hkw
    have hs := hq.sync_start hcode (by simp [hkey])
    obtain ⟨j, hj, hcs, hds⟩ := hq.declaration hs (by simp [hkey]) hlive
    have hsame : keyword? (fromKeyword q'.text) = keyword? (fromKeyword q.text) := by
      rw [hcs, hds, keyword?_alike (hq.alike hj)]
    have hlive' : q'.LiveFrom (fromKeyword q'.text) := by
      rw [hcs, hq.left.liveFrom_drop, hq.live_iff] at hlive
      exact ⟨j, hds, hlive⟩
    exact hq.right.candidate?_eq_some.2 ⟨howned, hs.2, hline, hsame.trans hkey, hlive'⟩
  ext kw
  exact ⟨hone h kw, hone h.symm kw⟩

end Row

end CodeFolding
