import CodeFolding.Proofs.DisplayedNames
import CodeFolding.Settings
import Mathlib.Data.List.Forall2

/-!
Files selected by their extension.

The extension of a path is put into small letters of all of Unicode, a configured one into those of
ASCII only. The case of ASCII letters does not matter on either side, not even in bytes that are no
text. But a configured extension with a capital beyond ASCII does not select the files spelled with
it.
-/

set_option autoImplicit false

namespace CodeFolding

/-! ## Small letters of ASCII -/

section Ascii

variable {c : Char}

theorem toNat_lowerAscii (c : Char) : (lowerAscii c).toNat =
    if 65 ≤ c.toNat ∧ c.toNat ≤ 90 then c.toNat + 32 else c.toNat := by
  have hcapital : (c.val ≥ 'A'.val ∧ c.val ≤ 'Z'.val) ↔ 65 ≤ c.toNat ∧ c.toNat ≤ 90 := Iff.rfl
  by_cases h : 65 ≤ c.toNat ∧ c.toNat ≤ 90
  · have hvalue : (lowerAscii c).val = c.val + 32 := congrArg Char.val (dif_pos (hcapital.2 h))
    rw [if_pos h, Char.toNat, hvalue, UInt32.toNat_add]
    exact Nat.mod_eq_of_lt (Nat.lt_of_le_of_lt (Nat.add_le_add_right h.2 32) (by decide))
  · rw [if_neg h]
    exact congrArg Char.toNat (dif_neg (mt hcapital.1 h))

theorem lowerAscii_of_beyond (h : 128 ≤ c.toNat) : lowerAscii c = c :=
  Char.toNat_inj.1 (by rw [toNat_lowerAscii, if_neg (by omega)])

theorem toNat_lowerAscii_lt : (lowerAscii c).toNat < 128 ↔ c.toNat < 128 := by
  rw [toNat_lowerAscii]
  split <;> omega

theorem lowerAscii_lowerAscii (c : Char) : lowerAscii (lowerAscii c) = lowerAscii c := by
  refine Char.toNat_inj.1 ?_
  rw [toNat_lowerAscii, if_neg]
  rw [toNat_lowerAscii]
  split <;> omega

theorem lowerAscii_eq_iff {d : Char} (hd : 128 ≤ d.toNat) : lowerAscii c = d ↔ c = d := by
  constructor
  · rintro rfl
    have hc : ¬c.toNat < 128 := by rw [← toNat_lowerAscii_lt]; omega
    exact (lowerAscii_of_beyond (by omega)).symm
  · rintro rfl
    exact lowerAscii_of_beyond hd

/-- For a table that takes each capital of ASCII as it takes its small letter. -/
theorem has_lowerAscii {t : CharTable} (h : ∀ n < 26, t.covers (n + 97) = t.covers (n + 65))
    (c : Char) : t.has (lowerAscii c) = t.has c := by
  rw [CharTable.has, CharTable.has, toNat_lowerAscii]
  split
  · have hletter := h (c.toNat - 65) (by omega)
    rwa [show c.toNat - 65 + 97 = c.toNat + 32 by omega,
      show c.toNat - 65 + 65 = c.toNat by omega] at hletter
  · rfl

theorem findSome?_lower?_eq_none {runs : List (Nat × Nat × Nat × Nat)} {n : Nat}
    (h : ∀ r ∈ runs, n < r.1 ∨ r.2.1 < n) :
    (runs.findSome? fun (a, b, s, i) => CaseRun.lower? ⟨a, b, s, i⟩ n) = none :=
  List.findSome?_eq_none_iff.2 fun r hr => if_neg fun hrun =>
    (h r hr).elim (Nat.not_lt.2 hrun.1) (Nat.not_lt.2 hrun.2.1)

/-- Of the runs of capitals only the first one reaches into ASCII. -/
theorem findSome?_caseRuns {n : Nat} (h : n < 128) :
    (caseRuns.findSome? fun (a, b, s, i) => CaseRun.lower? ⟨a, b, s, i⟩ n) =
      CaseRun.lower? ⟨65, 90, 1, 97⟩ n := by
  have hbeyond : caseRuns.tail.all (128 ≤ ·.1) = true := by decide +kernel
  have hnone : (caseRuns.tail.findSome? fun (a, b, s, i) => CaseRun.lower? ⟨a, b, s, i⟩ n) =
      none :=
    findSome?_lower?_eq_none fun r hr =>
      .inl (Nat.lt_of_lt_of_le h (of_decide_eq_true (List.all_eq_true.1 hbeyond r hr)))
  rw [show caseRuns = (65, 90, 1, 97) :: caseRuns.tail from rfl, List.findSome?_cons, hnone]
  dsimp only
  cases CaseRun.lower? ⟨65, 90, 1, 97⟩ n <;> rfl

theorem lowerChar_of_ascii (h : c.toNat < 128) : lowerChar c = lowerAscii c := by
  have hsmall := toNat_lowerAscii c
  rw [lowerChar, findSome?_caseRuns h, CaseRun.lower?]
  by_cases hcapital : 65 ≤ c.toNat ∧ c.toNat ≤ 90
  · rw [if_pos hcapital] at hsmall
    rw [if_pos ⟨hcapital.1, hcapital.2, Nat.mod_one _⟩]
    dsimp only
    rw [← Char.ofNat_toNat (lowerAscii c), hsmall]
    exact congrArg Char.ofNat (by omega)
  · rw [if_neg hcapital] at hsmall
    rw [if_neg fun hrun => hcapital ⟨hrun.1, hrun.2.1⟩]
    exact (Char.toNat_inj.1 hsmall).symm

/-- A character in none of the runs of capitals. -/
theorem lowerChar_eq_self (h : caseRuns.all (fun r => c.toNat < r.1 || r.2.1 < c.toNat) = true) :
    lowerChar c = c := by
  rw [lowerChar, findSome?_lower?_eq_none fun r hr => ?_]
  simpa using List.all_eq_true.1 h r hr

theorem lowerChar_lowerAscii (c : Char) : lowerChar (lowerAscii c) = lowerChar c := by
  by_cases hc : c.toNat < 128
  · rw [lowerChar_of_ascii (toNat_lowerAscii_lt.2 hc), lowerAscii_lowerAscii, lowerChar_of_ascii hc]
  · rw [lowerAscii_of_beyond (by omega)]

theorem sameIgnoringAsciiCase_iff {a b : List Char} :
    sameIgnoringAsciiCase a b = true ↔ a.map lowerAscii = b.map lowerAscii := beq_iff_eq

end Ascii

/-! ## Small letters of a text -/

section Small

variable {c : Char}

/-- What a character of a text has as small letters. -/
def smallOf (behind rest : List Char) (c : Char) : List Char :=
  if c = 'Σ' then [lowerSigma behind rest] else if c = 'İ' then ['i', '\u0307'] else [lowerChar c]

theorem lowerFrom_cons (behind : List Char) (c : Char) (rest : List Char) :
    lowerFrom behind (c :: rest) = smallOf behind rest c ++ lowerFrom (c :: behind) rest := rfl

theorem meetsCased_map_lowerAscii (cs : List Char) :
    meetsCased (cs.map lowerAscii) = meetsCased cs := by
  induction cs with
  | nil => rfl
  | cons c rest ih =>
    have hignored : caseIgnorableTable.has (lowerAscii c) = caseIgnorableTable.has c :=
      has_lowerAscii (by decide) c
    have hcased : casedTable.has (lowerAscii c) = casedTable.has c := has_lowerAscii (by decide) c
    by_cases hc : caseIgnorableTable.has c = true
    · simpa only [meetsCased, List.map_cons, List.dropWhile_cons, hignored, hc, if_true] using ih
    · simpa only [meetsCased, List.map_cons, List.dropWhile_cons, hignored, hc, Bool.false_eq_true,
        if_false] using hcased

theorem smallOf_map_lowerAscii (behind rest : List Char) (c : Char) :
    smallOf (behind.map lowerAscii) (rest.map lowerAscii) (lowerAscii c) = smallOf behind rest c := by
  have hsigma : lowerAscii c = 'Σ' ↔ c = 'Σ' := lowerAscii_eq_iff (by decide)
  have hdotted : lowerAscii c = 'İ' ↔ c = 'İ' := lowerAscii_eq_iff (by decide)
  simp only [smallOf, lowerSigma, meetsCased_map_lowerAscii, hsigma, hdotted,
    lowerChar_lowerAscii]

/-- The case of ASCII letters does not matter to the small letters of a text. -/
theorem lowercase_map_lowerAscii (cs : List Char) : lowercase (cs.map lowerAscii) = lowercase cs := by
  suffices h : ∀ behind, lowerFrom (behind.map lowerAscii) (cs.map lowerAscii) =
      lowerFrom behind cs from h []
  induction cs with
  | nil => exact fun _ => rfl
  | cons c rest ih =>
    intro behind
    rw [List.map_cons, lowerFrom_cons, lowerFrom_cons, smallOf_map_lowerAscii, ← List.map_cons, ih]

theorem length_le_lowerFrom (behind cs : List Char) : cs.length ≤ (lowerFrom behind cs).length := by
  induction cs generalizing behind with
  | nil => exact Nat.zero_le _
  | cons c rest ih =>
    have hsmall : 1 ≤ (smallOf behind rest c).length := by
      rw [smallOf]
      split
      · exact Nat.le_refl 1
      · split <;> exact Nat.le_add_left 1 _
    have hrest := ih (c :: behind)
    rw [lowerFrom_cons, List.length_append, List.length_cons]
    omega

/-- A character that putting a text into small letters leaves as it is, but for ASCII case. -/
def KeptSmall (c : Char) : Prop := c.toNat < 128 ∨ lowercase [c] = [c]
  deriving Decidable

theorem lowercase_singleton (hsigma : c ≠ 'Σ') (hdotted : c ≠ 'İ') :
    lowercase [c] = [lowerChar c] := by
  rw [lowercase, lowerFrom_cons, smallOf, if_neg hsigma, if_neg hdotted]
  rfl

theorem lowerAscii_lowerChar_iff (hsigma : c ≠ 'Σ') (hdotted : c ≠ 'İ') :
    lowerAscii (lowerChar c) = lowerAscii c ↔ KeptSmall c := by
  rw [KeptSmall, lowercase_singleton hsigma hdotted, List.singleton_inj]
  constructor
  · intro h
    refine Classical.or_iff_not_imp_left.2 fun hbeyond => ?_
    rw [lowerAscii_of_beyond (by omega : 128 ≤ c.toNat)] at h
    have hsmall : ¬(lowerChar c).toNat < 128 := by rwa [← toNat_lowerAscii_lt, h]
    rwa [lowerAscii_of_beyond (by omega)] at h
  · rintro (hascii | hkept)
    · rw [lowerChar_of_ascii hascii, lowerAscii_lowerAscii]
    · rw [hkept]

theorem sigma_not_same (behind rest : List Char) :
    ('Σ' :: rest).map lowerAscii ≠ (lowerFrom behind ('Σ' :: rest)).map lowerAscii := by
  intro h
  have hhead : lowerAscii 'Σ' = lowerAscii (lowerSigma behind rest) := (List.cons.inj h).1
  rw [lowerSigma] at hhead
  split at hhead <;> exact absurd hhead (by decide)

/-- The capital with a dot has two characters as small letters, and no other has less than one. -/
theorem dotted_not_same (behind rest : List Char) :
    ('İ' :: rest).map lowerAscii ≠ (lowerFrom behind ('İ' :: rest)).map lowerAscii := by
  intro h
  have hlength := congrArg List.length h
  have hrest := length_le_lowerFrom ('İ' :: behind) rest
  have htwo : smallOf behind rest 'İ' = ['i', '\u0307'] := rfl
  rw [lowerFrom_cons, htwo] at hlength
  simp only [List.length_cons, List.length_append, List.length_map, List.length_nil] at hlength
  omega

/-- A text is its own small letters, but for ASCII case, if its characters are. -/
theorem lowerFrom_same_iff (behind cs : List Char) :
    cs.map lowerAscii = (lowerFrom behind cs).map lowerAscii ↔ ∀ c ∈ cs, KeptSmall c := by
  induction cs generalizing behind with
  | nil => simp [lowerFrom]
  | cons c rest ih =>
    rw [List.forall_mem_cons]
    by_cases hsigma : c = 'Σ'
    · subst hsigma
      exact iff_of_false (sigma_not_same behind rest) fun h => absurd h.1 (by decide)
    · by_cases hdotted : c = 'İ'
      · subst hdotted
        exact iff_of_false (dotted_not_same behind rest) fun h => absurd h.1 (by decide)
      · rw [lowerFrom_cons, smallOf, if_neg hsigma, if_neg hdotted, List.map_append, List.map_cons,
          List.map_singleton, List.singleton_append, List.cons.injEq, ih, eq_comm,
          lowerAscii_lowerChar_iff hsigma hdotted]

theorem same_lowercase_iff {cs : List Char} :
    sameIgnoringAsciiCase cs (lowercase cs) = true ↔ ∀ c ∈ cs, KeptSmall c := by
  rw [sameIgnoringAsciiCase_iff, lowercase, lowerFrom_same_iff]

end Small

/-! ## Small letters of bytes -/

namespace Utf8

/-- The byte of the small letter of an ASCII capital; any other byte is left as it is. -/
def lowerByte (b : UInt8) : UInt8 := if 0x41 ≤ b ∧ b ≤ 0x5A then b + 0x20 else b

variable {begun : Option Begun}

theorem toNat_lowerByte (b : UInt8) : (lowerByte b).toNat =
    if 65 ≤ b.toNat ∧ b.toNat ≤ 90 then b.toNat + 32 else b.toNat := by
  have hcapital : (0x41 ≤ b ∧ b ≤ 0x5A) ↔ 65 ≤ b.toNat ∧ b.toNat ≤ 90 := Iff.rfl
  rw [lowerByte]
  by_cases h : 65 ≤ b.toNat ∧ b.toNat ≤ 90
  · rw [if_pos (hcapital.2 h), if_pos h, UInt8.toNat_add]
    exact Nat.mod_eq_of_lt (Nat.lt_of_le_of_lt (Nat.add_le_add_right h.2 32) (by decide))
  · rw [if_neg (mt hcapital.1 h), if_neg h]

theorem lowerByte_of_beyond {b : UInt8} (h : 128 ≤ b.toNat) : lowerByte b = b :=
  UInt8.toNat_inj.1 (by rw [toNat_lowerByte, if_neg (by omega)])

theorem toNat_lowerByte_lt {b : UInt8} (h : b.toNat < 128) : (lowerByte b).toNat < 128 := by
  rw [toNat_lowerByte]
  split <;> omega

theorem ofNat_lowerByte {b : UInt8} (h : b.toNat < 128) :
    Char.ofNat (lowerByte b).toNat = lowerAscii (Char.ofNat b.toNat) := by
  have hchar : (Char.ofNat b.toNat).toNat = b.toNat := toNat_charOfNat (.inl (by omega))
  rw [← Char.ofNat_toNat (lowerAscii _), toNat_lowerAscii, hchar, toNat_lowerByte]

theorem lead_lowerByte (b : UInt8) :
    lead (lowerByte b).toNat =
      ((lead b.toNat).1.map (Option.map lowerAscii), (lead b.toNat).2) := by
  by_cases h : b.toNat < 128
  · rw [lead_one h, lead_one (toNat_lowerByte_lt h), ofNat_lowerByte h]
    rfl
  · rw [lowerByte_of_beyond (by omega)]
    have hleads := leads_lead b.toNat
    generalize lead b.toNat = l at hleads
    cases hleads with
    | one hone => omega
    | broken | two | three | four => rfl

theorem lowerAscii_ofNat {v : Nat} (h : 128 ≤ v) : lowerAscii (Char.ofNat v) = Char.ofNat v := by
  by_cases hv : v.isValidChar
  · refine lowerAscii_of_beyond ?_
    rw [Char.toNat, toNat_charOfNat hv]
    exact h
  · rw [Char.ofNat, dif_neg hv]
    rfl

theorem step_lowerByte (h : BegunBeyond begun) (b : UInt8) :
    step begun (lowerByte b).toNat =
      ((step begun b.toNat).1.map (Option.map lowerAscii), (step begun b.toNat).2) := by
  cases begun with
  | none => exact lead_lowerByte b
  | some p =>
    obtain ⟨hnext, hvalue⟩ := h p rfl
    by_cases hrange : p.lo ≤ b.toNat ∧ b.toNat ≤ p.hi
    · -- the byte goes on with a character beyond ASCII
      rw [lowerByte_of_beyond (by omega), step, if_pos hrange]
      split
      · have hkept := lowerAscii_ofNat (v := p.bits * 64 + (b.toNat - 0x80)) (by omega)
        simp only [List.map_cons, Option.map_some, hkept, List.map_nil]
      · rfl
    · have hbroken : ¬(p.lo ≤ (lowerByte b).toNat ∧ (lowerByte b).toNat ≤ p.hi) := by
        by_cases hb : b.toNat < 128
        · have := toNat_lowerByte_lt hb
          omega
        · rwa [lowerByte_of_beyond (by omega)]
      rw [step, if_neg hbroken, step, if_neg hrange, lead_lowerByte]
      rfl

theorem decodeFrom_map_lowerByte (h : BegunBeyond begun) (bytes : List UInt8) :
    decodeFrom begun (bytes.map lowerByte) =
      (decodeFrom begun bytes).map (Option.map lowerAscii) := by
  induction bytes generalizing begun with
  | nil => cases begun <;> rfl
  | cons b rest ih =>
    rw [List.map_cons, decodeFrom, decodeFrom, step_lowerByte h, ih (step_beyond h b.toNat).1,
      List.map_append]

/-- Small letters of ASCII can be taken of the bytes or of the text, also where it is broken. -/
theorem decodeLossy_map_lowerByte (bytes : List UInt8) :
    decodeLossy (bytes.map lowerByte) = (decodeLossy bytes).map lowerAscii := by
  rw [decodeLossy, pieces, decodeFrom_map_lowerByte begunBeyond_none, decodeLossy, pieces,
    List.map_map, List.map_map]
  refine List.map_congr_left fun piece _ => ?_
  cases piece <;> rfl

theorem lowercase_decodeLossy {bytes bytes' : List UInt8}
    (h : bytes.map lowerByte = bytes'.map lowerByte) :
    lowercase (decodeLossy bytes) = lowercase (decodeLossy bytes') := by
  rw [← lowercase_map_lowerAscii, ← decodeLossy_map_lowerByte, h, decodeLossy_map_lowerByte,
    lowercase_map_lowerAscii]

end Utf8

/-! ## Selection -/

namespace Settings

variable {s s' : Settings} {p q : Path} {e : List Char}

theorem selects_of_extension {ext : Name} (h : p.extension? = some ext) :
    s.selects p = s.extensions.any
      fun e => sameIgnoringAsciiCase e (lowercase (Utf8.decodeLossy ext)) := by
  rw [selects, h]

theorem selects_of_no_extension (h : p.extension? = none) : s.selects p = false := by
  rw [selects, h]

theorem any_same {es es' : List (List Char)}
    (h : List.Forall₂ (fun e e' => sameIgnoringAsciiCase e e' = true) es es') (small : List Char) :
    es.any (sameIgnoringAsciiCase · small) = es'.any (sameIgnoringAsciiCase · small) := by
  induction h with
  | nil => rfl
  | cons hsame _ ih =>
    rw [sameIgnoringAsciiCase_iff] at hsame
    rw [List.any_cons, List.any_cons, ih, sameIgnoringAsciiCase, sameIgnoringAsciiCase, hsame]

theorem selects_congr
    (hextensions : List.Forall₂ (fun e e' => sameIgnoringAsciiCase e e' = true)
      s.extensions s'.extensions)
    (hpaths : p.extension?.map (·.map Utf8.lowerByte) = q.extension?.map (·.map Utf8.lowerByte)) :
    s.selects p = s'.selects q := by
  cases hp : p.extension? with
  | none =>
    rw [hp, Option.map_none, eq_comm, Option.map_eq_none_iff] at hpaths
    rw [selects_of_no_extension hp, selects_of_no_extension hpaths]
  | some ext =>
    rw [hp, Option.map_some, eq_comm, Option.map_eq_some_iff] at hpaths
    obtain ⟨ext', hq, hbytes⟩ := hpaths
    rw [selects_of_extension hp, selects_of_extension hq, Utf8.lowercase_decodeLossy hbytes]
    exact any_same hextensions _

/-- Settings that list one extension. -/
def listing (e : List Char) : Settings := { Settings.standard .here with extensions := [e] }

theorem selects_listing (h : p.extension? = some (Utf8.encode e)) :
    (listing e).selects p = true ↔ ∀ c ∈ e, KeptSmall c := by
  rw [selects_of_extension h, Utf8.decodeLossy_encode, ← same_lowercase_iff, listing,
    List.any_cons, List.any_nil, Bool.or_false]

/-- Settings that list more select more. -/
theorem selects_of_listing (he : e ∈ s.extensions) (h : (listing e).selects p = true) :
    s.selects p = true := by
  cases hp : p.extension? with
  | none =>
    rw [selects_of_no_extension hp] at h
    cases h
  | some ext =>
    rw [selects_of_extension hp, listing, List.any_cons, List.any_nil, Bool.or_false] at h
    rw [selects_of_extension hp]
    exact List.any_eq_true.2 ⟨e, he, h⟩

/-- A path is selected wherever its extension is listed exactly if no character of the extension
beyond ASCII has small letters other than itself. The case of ASCII letters does not matter, neither
in the extension of a path, be it text or not, nor in the listed ones. -/
theorem selects_as_spelled (p : Path) :
    (∀ e, p.extension? = some (Utf8.encode e) →
      ((∀ s : Settings, e ∈ s.extensions → s.selects p = true) ↔
        ∀ c ∈ e, c.toNat < 128 ∨ lowercase [c] = [c])) ∧
    ∀ (q : Path) (s s' : Settings),
      List.Forall₂ (fun e e' => sameIgnoringAsciiCase e e' = true) s.extensions s'.extensions →
      p.extension?.map (·.map Utf8.lowerByte) = q.extension?.map (·.map Utf8.lowerByte) →
      s.selects p = s'.selects q := by
  refine ⟨fun e hp => ⟨fun h => ?_, fun h s he => ?_⟩, fun _ _ _ => selects_congr⟩
  · exact (selects_listing hp).1 (h (listing e) (List.mem_singleton_self e))
  · exact selects_of_listing he ((selects_listing hp).2 h)

/-- A small letter beyond ASCII in an extension, and another extension that is no text. -/
theorem selects_as_spelled_accented :
    let p : Path := .ofText "a.Ré".toList
    let s := { listing "R\uFFFD".toList with maxFileSize := 1 }
    let broken : Path := ⟨Utf8.encode "b.R".toList ++ [0xFF]⟩
    let broken' : Path := ⟨Utf8.encode "src/c.r".toList ++ [0xFF]⟩
    p.extension? = some (Utf8.encode "Ré".toList) ∧
      (∀ c ∈ "Ré".toList, c.toNat < 128 ∨ lowercase [c] = [c]) ∧
      (∀ s : Settings, "Ré".toList ∈ s.extensions → s.selects p = true) ∧
      List.Forall₂ (fun e e' => sameIgnoringAsciiCase e e' = true)
        s.extensions (listing "r\uFFFD".toList).extensions ∧
      broken.extension?.map (·.map Utf8.lowerByte) = broken'.extension?.map (·.map Utf8.lowerByte) ∧
      s.selects broken = (listing "r\uFFFD".toList).selects broken' := by
  intro p s broken broken'
  have hp : p.extension? = some (Utf8.encode "Ré".toList) := rfl
  have hsmall : lowercase ['é'] = ['é'] := by
    rw [lowercase_singleton (by decide) (by decide), lowerChar_eq_self (by decide +kernel)]
  have hkept : ∀ c ∈ "Ré".toList, c.toNat < 128 ∨ lowercase [c] = [c] :=
    List.forall_mem_cons.2 ⟨.inl (by decide), List.forall_mem_singleton.2 (.inr hsmall)⟩
  have hlisted : List.Forall₂ (fun e e' => sameIgnoringAsciiCase e e' = true)
      s.extensions (listing "r\uFFFD".toList).extensions := .cons rfl .nil
  have hbytes : broken.extension?.map (·.map Utf8.lowerByte) =
      broken'.extension?.map (·.map Utf8.lowerByte) := rfl
  exact ⟨hp, hkept, ((selects_as_spelled p).1 _ hp).2 hkept, hlisted, hbytes,
    (selects_as_spelled broken).2 broken' s _ hlisted hbytes⟩

/-- A file with the only extension that is listed is not selected. -/
theorem capital_extension_unselected :
    let p : Path := .ofText "a.É".toList
    p.text? = some "a.É".toList ∧ p.extension? = some (Utf8.encode "É".toList) ∧
      "É".toList ∈ (listing "É".toList).extensions ∧ (listing "É".toList).selects p = false := by
  decide +kernel

end Settings

end CodeFolding
