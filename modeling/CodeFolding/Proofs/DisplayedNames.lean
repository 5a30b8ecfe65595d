import CodeFolding.Proofs.EncodedText
import CodeFolding.Proofs.Paths

/-!
The names in the text of a path.

A slash is a character of one byte, and no byte of another character is a slash. So the text of a
path has its slashes where the path has them, and between them the texts of the parts, broken parts
with replacement characters. A text without these characters is the text of one part only.
-/

set_option autoImplicit false

namespace CodeFolding

namespace Utf8

/-- A character that has begun goes on with bytes from 0x80 on. In front of its last six bits it has
the value 2 at least, by now or with the next byte, so it becomes no character of one byte. -/
structure Begun.Beyond (p : Begun) : Prop where
  next : 0x80 ≤ p.lo
  value : 2 ≤ p.bits ∨ (1 < p.missing ∧ 2 ≤ p.bits * 64 + (p.lo - 0x80))

theorem ofNat_eq_slash {v : Nat} (h : Char.ofNat v = '/') : v = 0x2F := by
  by_cases hv : v.isValidChar
  · rw [← toNat_charOfNat hv, h]
    rfl
  · rw [Char.ofNat, dif_neg hv] at h
    exact absurd h (by decide)

/-- What has begun, if anything has, is beyond ASCII. -/
def BegunBeyond (begun : Option Begun) : Prop := ∀ p, begun = some p → p.Beyond

theorem begunBeyond_none : BegunBeyond none := nofun

theorem begunBeyond_some {p : Begun} (h : p.Beyond) : BegunBeyond (some p) := by
  rintro _ ⟨⟩
  exact h

theorem lead_beyond (b : Nat) :
    BegunBeyond (lead b).2 ∧ (some '/' ∈ (lead b).1 → b = 0x2F) := by
  have hleads := leads_lead b
  generalize lead b = l at hleads
  cases hleads with
  | one h =>
    refine ⟨begunBeyond_none, fun hm => ?_⟩
    exact ofNat_eq_slash (Option.some.inj (List.mem_singleton.1 hm)).symm
  | broken => exact ⟨begunBeyond_none, by simp⟩
  | two hb hlo hhi =>
    exact ⟨begunBeyond_some ⟨Nat.le_refl _, .inl hlo⟩, by simp⟩
  | three hb hx hlo hhi hfirst hsurrogate =>
    refine ⟨begunBeyond_some ⟨hlo, .inr ⟨Nat.lt_add_one 1, ?_⟩⟩, by simp⟩
    dsimp only
    omega
  | four hb hx hlo hhi hfirst hlast =>
    refine ⟨begunBeyond_some ⟨hlo, .inr ⟨Nat.one_lt_succ_succ 1, ?_⟩⟩, by simp⟩
    dsimp only
    omega

variable {begun : Option Begun}

theorem step_beyond (h : BegunBeyond begun) (b : Nat) :
    BegunBeyond (step begun b).2 ∧ (some '/' ∈ (step begun b).1 → b = 0x2F) := by
  cases begun with
  | none => exact lead_beyond b
  | some p =>
    obtain ⟨hnext, hvalue⟩ := h p rfl
    by_cases hrange : p.lo ≤ b ∧ b ≤ p.hi
    · rw [step, if_pos hrange]
      by_cases hlast : p.missing ≤ 1
      · rw [if_pos hlast]
        refine ⟨begunBeyond_none, fun hm => ?_⟩
        have hslash := ofNat_eq_slash (Option.some.inj (List.mem_singleton.1 hm)).symm
        omega
      · rw [if_neg hlast]
        refine ⟨begunBeyond_some ⟨Nat.le_refl _, .inl ?_⟩, by simp⟩
        dsimp only
        omega
    · obtain ⟨hbegun, hslash⟩ := lead_beyond b
      rw [step, if_neg hrange]
      exact ⟨hbegun, by simpa using hslash⟩

/-- A slash breaks off what has begun and stands for itself. -/
theorem decodeFrom_slash (h : BegunBeyond begun) (rest : List UInt8) :
    decodeFrom begun (0x2F :: rest) = decodeFrom begun [] ++ some '/' :: decodeFrom none rest := by
  cases begun with
  | none => rfl
  | some p =>
    have hnext := (h p rfl).next
    have hstep : step (some p) 0x2F = ([none, some '/'], none) := if_neg (by omega)
    change (step (some p) 0x2F).1 ++ decodeFrom (step (some p) 0x2F).2 rest = _
    rw [hstep]
    rfl

theorem decodeFrom_append_slash (h : BegunBeyond begun) (front rest : List UInt8) :
    decodeFrom begun (front ++ 0x2F :: rest) =
      decodeFrom begun front ++ some '/' :: decodeFrom none rest := by
  induction front generalizing begun with
  | nil => exact decodeFrom_slash h rest
  | cons b front ih =>
    rw [List.cons_append, decodeFrom, decodeFrom, ih (step_beyond h b.toNat).1, List.append_assoc]

theorem mem_of_slash_mem_decodeFrom (h : BegunBeyond begun) {bytes : List UInt8}
    (hm : some '/' ∈ decodeFrom begun bytes) : 0x2F ∈ bytes := by
  induction bytes generalizing begun with
  | nil => cases begun <;> simp [decodeFrom] at hm
  | cons b rest ih =>
    obtain ⟨hbegun, hslash⟩ := step_beyond h b.toNat
    rw [decodeFrom, List.mem_append] at hm
    obtain hm | hm := hm
    · rw [List.mem_cons]
      exact .inl (UInt8.toNat_inj.1 (hslash hm)).symm
    · exact List.mem_cons_of_mem _ (ih hbegun hm)

theorem decodeLossy_append_slash (front rest : List UInt8) :
    decodeLossy (front ++ 0x2F :: rest) = decodeLossy front ++ '/' :: decodeLossy rest := by
  rw [decodeLossy, pieces, decodeFrom_append_slash begunBeyond_none, List.map_append, List.map_cons]
  rfl

theorem mem_of_slash_mem_decodeLossy {bytes : List UInt8} (h : '/' ∈ decodeLossy bytes) :
    0x2F ∈ bytes := by
  obtain ⟨piece, hpiece, hslash⟩ := List.mem_map.1 h
  cases piece with
  | none => exact absurd hslash (by decide)
  | some c =>
    obtain rfl : c = '/' := hslash
    exact mem_of_slash_mem_decodeFrom begunBeyond_none hpiece

theorem decodeLossy_encode (cs : List Char) : decodeLossy (encode cs) = cs := by
  rw [decodeLossy, pieces_encode, List.map_map]
  exact List.map_id _

/-- A text without replacement characters has no broken parts. -/
theorem decodeLossy_eq_iff {bytes : List UInt8} {cs : List Char} (h : '\uFFFD' ∉ cs) :
    decodeLossy bytes = cs ↔ bytes = encode cs := by
  constructor
  · rintro rfl
    refine eq_encode_of_decodeFrom ?_
    have hkept : ∀ piece ∈ pieces bytes, some (piece.getD '\uFFFD') = piece := by
      rintro (_ | c) hpiece
      · exact absurd (List.mem_map.2 ⟨none, hpiece, rfl⟩) h
      · rfl
    rw [decodeLossy, List.map_map]
    exact ((List.map_congr_left hkept).trans (List.map_id _)).symm
  · rintro rfl
    exact decodeLossy_encode cs

end Utf8

namespace Path

/-- The bytes of the text of a path, or of a part of one. -/
def shown (bytes : List UInt8) : List UInt8 := Utf8.encode (Utf8.decodeLossy bytes)

variable {p : Path} {part : Name} {parts : List Name}

theorem shown_append_slash (front rest : List UInt8) :
    shown (front ++ slash :: rest) = shown front ++ slash :: shown rest := by
  rw [shown, slash, Utf8.decodeLossy_append_slash, Utf8.encode, List.flatMap_append]
  rfl

theorem slash_notMem_shown (h : slash ∉ part) : slash ∉ shown part := fun hm =>
  h (Utf8.mem_of_slash_mem_decodeLossy
    (Utf8.mem_of_byte_mem_encode (show '/'.toNat < 0x80 by decide) hm))

theorem shown_eq_iff {cs : List Char} (h : '\uFFFD' ∉ cs) :
    shown part = Utf8.encode cs ↔ part = Utf8.encode cs :=
  Iff.trans ⟨fun heq => Utf8.encode_injective heq, congrArg Utf8.encode⟩ (Utf8.decodeLossy_eq_iff h)

theorem shown_joinSlashes (parts : List Name) :
    shown (joinSlashes parts) = joinSlashes (parts.map shown) := by
  induction parts with
  | nil => rfl
  | cons part rest ih =>
    by_cases hrest : rest = []
    · subst hrest
      rfl
    · rw [joinSlashes_cons _ hrest, shown_append_slash, ih, List.map_cons,
        joinSlashes_cons _ (by simpa using hrest)]

/-- The parts of the text are the texts of the parts. -/
theorem splitSlashes_shown (bytes : List UInt8) :
    splitSlashes (shown bytes) = (splitSlashes bytes).map shown := by
  have hparts : ∀ part ∈ (splitSlashes bytes).map shown, slash ∉ part := by
    intro part hpart
    obtain ⟨name, hname, rfl⟩ := List.mem_map.1 hpart
    exact slash_notMem_shown (slash_notMem_of_mem_splitSlashes hname)
  rw [← joinSlashes_splitSlashes bytes, shown_joinSlashes, joinSlashes_splitSlashes,
    splitSlashes_joinSlashes (by simpa using splitSlashes_ne_nil bytes) hparts]

theorem shown_mem_map_iff {cs : List Char} (h : '\uFFFD' ∉ cs) :
    Utf8.encode cs ∈ parts.map shown ↔ Utf8.encode cs ∈ parts := by
  rw [List.mem_map]
  constructor
  · rintro ⟨part, hpart, heq⟩
    rwa [← (shown_eq_iff h).1 heq]
  · exact fun hmem => ⟨_, hmem, (shown_eq_iff h).2 rfl⟩

end Path

end CodeFolding
