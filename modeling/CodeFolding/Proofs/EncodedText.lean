import CodeFolding.Text.Utf8

/-!
Text that is encoded in UTF-8 decodes to itself, and no other bytes decode.

A character of several bytes is read by its lead byte, which says how many bytes follow and in which
range the first of them lies, and by the bytes that follow, each with six bits more.
-/

set_option autoImplicit false

namespace CodeFolding.Utf8

theorem toNat_ofNat {n : Nat} (h : n < 256) : (UInt8.ofNat n).toNat = n := by
  rw [UInt8.toNat_ofNat', Nat.mod_eq_of_lt h]

/-- A scalar value: no surrogate, and none above the last plane. -/
def IsScalar (v : Nat) : Prop := v < 0xD800 ∨ (0xDFFF < v ∧ v < 0x110000)

theorem isScalar_toNat (c : Char) : IsScalar c.toNat := c.valid

/-! ## Lead bytes -/

theorem lead_one {v : Nat} (h : v < 0x80) : lead v = ([some (Char.ofNat v)], none) := by
  simp [lead, h]

theorem lead_two {v : Nat} (hlo : 0x80 ≤ v) (hhi : v < 0x800) :
    lead (v / 64 + 192) = ([], some ⟨v / 64, 1, 0x80, 0xBF⟩) := by
  unfold lead
  rw [if_neg (by omega), if_neg (by omega), if_pos (by omega), Nat.add_sub_cancel]

theorem lead_three {v : Nat} (hv : IsScalar v) (hlo : 0x800 ≤ v) (hhi : v < 0x10000) :
    ∃ lo hi, lead (v / 4096 + 224) = ([], some ⟨v / 4096, 2, lo, hi⟩) ∧
      lo ≤ v / 64 % 64 + 128 ∧ v / 64 % 64 + 128 ≤ hi := by
  unfold IsScalar at hv
  unfold lead
  rw [if_neg (by omega), if_neg (by omega), if_neg (by omega)]
  split
  · exact ⟨0xA0, 0xBF, by rw [show v / 4096 = 0 by omega], by omega, by omega⟩
  · split
    · exact ⟨0x80, 0x9F, by rw [show v / 4096 = 0xD by omega], by omega, by omega⟩
    · rw [if_pos (by omega), Nat.add_sub_cancel]
      exact ⟨0x80, 0xBF, rfl, by omega, by omega⟩

theorem lead_four {v : Nat} (hlo : 0x10000 ≤ v) (hhi : v < 0x110000) :
    ∃ lo hi, lead (v / 262144 + 240) = ([], some ⟨v / 262144, 3, lo, hi⟩) ∧
      lo ≤ v / 4096 % 64 + 128 ∧ v / 4096 % 64 + 128 ≤ hi := by
  unfold lead
  rw [if_neg (by omega), if_neg (by omega), if_neg (by omega), if_neg (by omega), if_neg (by omega),
    if_neg (by omega)]
  split
  · exact ⟨0x90, 0xBF, by rw [show v / 262144 = 0 by omega], by omega, by omega⟩
  · split
    · rw [Nat.add_sub_cancel]
      exact ⟨0x80, 0xBF, rfl, by omega, by omega⟩
    · rw [if_pos (by omega)]
      exact ⟨0x80, 0x8F, by rw [show v / 262144 = 4 by omega], by omega, by omega⟩

/-! ## Bytes that follow -/

theorem decodeFrom_more {bits missing lo hi low : Nat} (hmissing : 1 < missing)
    (hlo : lo ≤ low + 128) (hhi : low + 128 ≤ hi) (hlow : low < 64) (rest : List UInt8) :
    decodeFrom (some ⟨bits, missing, lo, hi⟩) (UInt8.ofNat (low + 128) :: rest) =
      decodeFrom (some ⟨bits * 64 + low, missing - 1, 0x80, 0xBF⟩) rest := by
  rw [decodeFrom, toNat_ofNat (by omega), step, if_pos ⟨hlo, hhi⟩]
  simp only [Nat.add_sub_cancel]
  rw [if_neg (by omega)]
  rfl

theorem decodeFrom_end {bits lo hi low : Nat} (hlo : lo ≤ low + 128) (hhi : low + 128 ≤ hi)
    (hlow : low < 64) (rest : List UInt8) :
    decodeFrom (some ⟨bits, 1, lo, hi⟩) (UInt8.ofNat (low + 128) :: rest) =
      some (Char.ofNat (bits * 64 + low)) :: decodeFrom none rest := by
  rw [decodeFrom, toNat_ofNat (by omega), step, if_pos ⟨hlo, hhi⟩]
  simp only [Nat.add_sub_cancel]
  rw [if_pos (Nat.le_refl 1)]
  rfl

theorem decodeFrom_encodeChar (c : Char) (rest : List UInt8) :
    decodeFrom none (String.utf8EncodeChar c ++ rest) = some c :: decodeFrom none rest := by
  have hscalar := isScalar_toNat c
  have hchar : Char.ofNat c.toNat = c := Char.ofNat_toNat c
  have hval : c.val.toNat = c.toNat := rfl
  have hbound : c.toNat < 0x110000 := by unfold IsScalar at hscalar; omega
  have hlead : ∀ {b : Nat} {p : Begun} (tail : List UInt8), b < 256 → lead b = ([], some p) →
      decodeFrom none (UInt8.ofNat b :: tail) = decodeFrom (some p) tail := by
    intro b p tail hb hp
    rw [decodeFrom, toNat_ofNat hb, step, hp]
    rfl
  simp only [String.utf8EncodeChar, hval]
  split
  · rw [List.singleton_append, decodeFrom, toNat_ofNat (by omega), step, lead_one (by omega), hchar]
    rfl
  · split
    · rw [Nat.mod_eq_of_lt (show c.toNat / 64 < 32 by omega)]
      simp only [List.cons_append, List.nil_append]
      rw [hlead _ (by omega) (lead_two (by omega) (by omega)),
        decodeFrom_end (by omega) (by omega) (by omega),
        show c.toNat / 64 * 64 + c.toNat % 64 = c.toNat by omega, hchar]
    · split
      · obtain ⟨lo, hi, hthree, hlo, hhi⟩ := lead_three hscalar (by omega) (by omega)
        rw [Nat.mod_eq_of_lt (show c.toNat / 4096 < 16 by omega)]
        simp only [List.cons_append, List.nil_append]
        rw [hlead _ (by omega) hthree, decodeFrom_more (by omega) hlo hhi (by omega),
          decodeFrom_end (by omega) (by omega) (by omega),
          show (c.toNat / 4096 * 64 + c.toNat / 64 % 64) * 64 + c.toNat % 64 = c.toNat by omega, hchar]
      · obtain ⟨lo, hi, hfour, hlo, hhi⟩ := lead_four (v := c.toNat) (by omega) (by omega)
        rw [Nat.mod_eq_of_lt (show c.toNat / 262144 < 8 by omega)]
        simp only [List.cons_append, List.nil_append]
        rw [hlead _ (by omega) hfour, decodeFrom_more (by omega) hlo hhi (by omega),
          decodeFrom_more (by omega) (by omega) (by omega) (by omega),
          decodeFrom_end (by omega) (by omega) (by omega),
          show ((c.toNat / 262144 * 64 + c.toNat / 4096 % 64) * 64 + c.toNat / 64 % 64) * 64 +
            c.toNat % 64 = c.toNat by omega, hchar]

theorem pieces_encode (cs : List Char) : pieces (encode cs) = cs.map some := by
  induction cs with
  | nil => rfl
  | cons c cs ih =>
    rw [pieces, encode, List.flatMap_cons, decodeFrom_encodeChar]
    exact congrArg (some c :: ·) ih

@[simp] theorem decode?_encode (cs : List Char) : decode? (encode cs) = some cs := by
  rw [decode?, pieces_encode, List.mapM_map]
  exact List.mapM_pure.trans (congrArg some (List.map_id cs))

/-! ## Only encoded text decodes -/

theorem toNat_charOfNat {v : Nat} (h : IsScalar v) : (Char.ofNat v).val.toNat = v := by
  have hvalid : v.isValidChar := h
  rw [Char.ofNat, dif_pos hvalid]
  rfl

theorem encodeChar_one {v : Nat} (h : v < 0x80) :
    String.utf8EncodeChar (Char.ofNat v) = [UInt8.ofNat v] := by
  have hv := toNat_charOfNat (v := v) (by unfold IsScalar; omega)
  rw [String.utf8EncodeChar, hv, if_pos (by omega)]

theorem encodeChar_two {x low : Nat} (hlo : 2 ≤ x) (hhi : x < 32) (hlow : low < 64) :
    String.utf8EncodeChar (Char.ofNat (x * 64 + low)) =
      [UInt8.ofNat (x + 192), UInt8.ofNat (low + 128)] := by
  have hv := toNat_charOfNat (v := x * 64 + low) (by unfold IsScalar; omega)
  simp only [String.utf8EncodeChar, hv]
  rw [if_neg (by omega), if_pos (by omega), show (x * 64 + low) / 64 % 32 = x by omega,
    show (x * 64 + low) % 64 = low by omega]

theorem encodeChar_three {x mid low : Nat} (hx : x < 16) (hmid : mid < 64) (hlow : low < 64)
    (hfirst : x = 0 → 32 ≤ mid) (hsurrogate : x = 13 → mid < 32) :
    String.utf8EncodeChar (Char.ofNat ((x * 64 + mid) * 64 + low)) =
      [UInt8.ofNat (x + 224), UInt8.ofNat (mid + 128), UInt8.ofNat (low + 128)] := by
  have hv := toNat_charOfNat (v := (x * 64 + mid) * 64 + low) (by unfold IsScalar; omega)
  simp only [String.utf8EncodeChar, hv]
  rw [if_neg (by omega), if_neg (by omega), if_pos (by omega),
    show ((x * 64 + mid) * 64 + low) / 4096 % 16 = x by omega,
    show ((x * 64 + mid) * 64 + low) / 64 % 64 = mid by omega,
    show ((x * 64 + mid) * 64 + low) % 64 = low by omega]

theorem encodeChar_four {x top mid low : Nat} (hx : x < 5) (htop : top < 64) (hmid : mid < 64)
    (hlow : low < 64) (hfirst : x = 0 → 16 ≤ top) (hlast : x = 4 → top < 16) :
    String.utf8EncodeChar (Char.ofNat (((x * 64 + top) * 64 + mid) * 64 + low)) =
      [UInt8.ofNat (x + 240), UInt8.ofNat (top + 128), UInt8.ofNat (mid + 128),
        UInt8.ofNat (low + 128)] := by
  have hv := toNat_charOfNat (v := ((x * 64 + top) * 64 + mid) * 64 + low) (by unfold IsScalar; omega)
  simp only [String.utf8EncodeChar, hv]
  rw [if_neg (by omega), if_neg (by omega), if_neg (by omega),
    show (((x * 64 + top) * 64 + mid) * 64 + low) / 262144 % 8 = x by omega,
    show (((x * 64 + top) * 64 + mid) * 64 + low) / 4096 % 64 = top by omega,
    show (((x * 64 + top) * 64 + mid) * 64 + low) / 64 % 64 = mid by omega,
    show (((x * 64 + top) * 64 + mid) * 64 + low) % 64 = low by omega]

/-- What a first byte can give: a character, a broken part, or a character of several bytes that has
begun. -/
inductive Leads (b : Nat) : Step → Prop where
  | one (h : b < 0x80) : Leads b ([some (Char.ofNat b)], none)
  | broken : Leads b ([none], none)
  | two {x : Nat} (hb : b = x + 192) (hlo : 2 ≤ x) (hhi : x < 32) :
      Leads b ([], some ⟨x, 1, 0x80, 0xBF⟩)
  | three {x lo hi : Nat} (hb : b = x + 224) (hx : x < 16) (hlo : 0x80 ≤ lo) (hhi : hi ≤ 0xBF)
      (hfirst : x = 0 → 0xA0 ≤ lo) (hsurrogate : x = 13 → hi ≤ 0x9F) :
      Leads b ([], some ⟨x, 2, lo, hi⟩)
  | four {x lo hi : Nat} (hb : b = x + 240) (hx : x < 5) (hlo : 0x80 ≤ lo) (hhi : hi ≤ 0xBF)
      (hfirst : x = 0 → 0x90 ≤ lo) (hlast : x = 4 → hi ≤ 0x8F) :
      Leads b ([], some ⟨x, 3, lo, hi⟩)

theorem leads_lead (b : Nat) : Leads b (lead b) := by
  refine iteInduction .one fun _ => iteInduction (fun _ => .broken) fun _ => ?_
  refine iteInduction (fun _ => .two (by omega) (by omega) (by omega)) fun _ => ?_
  iterate 3
    refine iteInduction (fun _ => .three (by omega) (by omega) (by omega) (by omega) (by omega)
      (by omega)) fun _ => ?_
  iterate 3
    refine iteInduction (fun _ => .four (by omega) (by omega) (by omega) (by omega) (by omega)
      (by omega)) fun _ => ?_
  exact .broken

theorem none_notMem_map_some (cs : List Char) : none ∉ cs.map some := by simp

theorem eq_cons_of_map_some {c : Char} {pieces : List (Option Char)} {cs : List Char}
    (h : some c :: pieces = cs.map some) : ∃ more, cs = c :: more ∧ pieces = more.map some := by
  obtain ⟨_, more, rfl, hc, hmore⟩ := List.map_eq_cons_iff.1 h.symm
  exact ⟨more, by rw [Option.some.inj hc], hmore.symm⟩

section

variable {bits missing lo hi : Nat} {bytes : List UInt8} {cs : List Char}

/-- A character that has begun goes on with a byte in its range. -/
theorem exists_low (hlo : 0x80 ≤ lo) (hhi : hi ≤ 0xBF)
    (h : decodeFrom (some ⟨bits, missing, lo, hi⟩) bytes = cs.map some) :
    ∃ low rest, low < 64 ∧ lo ≤ low + 128 ∧ low + 128 ≤ hi ∧
      bytes = UInt8.ofNat (low + 128) :: rest := by
  cases bytes with
  | nil => exact absurd (h ▸ List.mem_cons_self) (none_notMem_map_some cs)
  | cons b rest =>
    by_cases hrange : lo ≤ b.toNat ∧ b.toNat ≤ hi
    · refine ⟨b.toNat - 128, rest, by omega, by omega, by omega, ?_⟩
      rw [Nat.sub_add_cancel (by omega), UInt8.ofNat_toNat]
    · rw [decodeFrom, step, if_neg hrange] at h
      exact absurd (h ▸ List.mem_cons_self) (none_notMem_map_some cs)

theorem exists_more (hmissing : 1 < missing) (hlo : 0x80 ≤ lo) (hhi : hi ≤ 0xBF)
    (h : decodeFrom (some ⟨bits, missing, lo, hi⟩) bytes = cs.map some) :
    ∃ low rest, low < 64 ∧ lo ≤ low + 128 ∧ low + 128 ≤ hi ∧
      bytes = UInt8.ofNat (low + 128) :: rest ∧
      decodeFrom (some ⟨bits * 64 + low, missing - 1, 0x80, 0xBF⟩) rest = cs.map some := by
  obtain ⟨low, rest, hlow, hlow', hhigh, rfl⟩ := exists_low hlo hhi h
  rw [decodeFrom_more hmissing hlow' hhigh hlow] at h
  exact ⟨low, rest, hlow, hlow', hhigh, rfl, h⟩

theorem exists_end (h : decodeFrom (some ⟨bits, 1, 0x80, 0xBF⟩) bytes = cs.map some) :
    ∃ low rest more, low < 64 ∧ bytes = UInt8.ofNat (low + 128) :: rest ∧
      cs = Char.ofNat (bits * 64 + low) :: more ∧ decodeFrom none rest = more.map some := by
  obtain ⟨low, rest, hlow, hlow', hhigh, rfl⟩ := exists_low (by decide) (by decide) h
  rw [decodeFrom_end hlow' hhigh hlow] at h
  obtain ⟨more, hcs, hrest⟩ := eq_cons_of_map_some h
  exact ⟨low, rest, more, hlow, rfl, hcs, hrest⟩

/-- Bytes that decode start with an encoded character. -/
theorem exists_encodeChar {b : UInt8} (h : decodeFrom none (b :: bytes) = cs.map some) :
    ∃ c more rest, cs = c :: more ∧ b :: bytes = String.utf8EncodeChar c ++ rest ∧
      decodeFrom none rest = more.map some := by
  have hb : b = UInt8.ofNat b.toNat := UInt8.ofNat_toNat.symm
  rw [decodeFrom, step] at h
  have hleads := leads_lead b.toNat
  generalize lead b.toNat = l at h hleads
  cases hleads with
  | one hone =>
    obtain ⟨more, hcs, hrest⟩ := eq_cons_of_map_some h
    exact ⟨_, more, bytes, hcs, by rw [encodeChar_one hone, ← hb]; rfl, hrest⟩
  | broken => exact absurd (h ▸ List.mem_cons_self) (none_notMem_map_some cs)
  | two hx hlo hhi =>
    obtain ⟨low, rest, more, hlow, rfl, hcs, hrest⟩ := exists_end h
    refine ⟨_, more, rest, hcs, ?_, hrest⟩
    rw [encodeChar_two hlo hhi hlow, ← hx, ← hb]
    rfl
  | three hx hx16 hlo hhi hfirst hsurrogate =>
    obtain ⟨mid, rest, hmid, hmidlo, hmidhi, rfl, hmore⟩ := exists_more (by decide) hlo hhi h
    obtain ⟨low, rest, more, hlow, rfl, hcs, hrest⟩ := exists_end hmore
    refine ⟨_, more, rest, hcs, ?_, hrest⟩
    rw [encodeChar_three hx16 hmid hlow (by omega) (by omega), ← hx, ← hb]
    rfl
  | four hx hx5 hlo hhi hfirst hlast =>
    obtain ⟨top, rest, htop, htoplo, htophi, rfl, hmore⟩ := exists_more (by decide) hlo hhi h
    obtain ⟨mid, rest, hmid, -, -, rfl, htail⟩ :=
      exists_more (by decide) (by decide) (by decide) hmore
    obtain ⟨low, rest, more, hlow, rfl, hcs, hrest⟩ := exists_end htail
    refine ⟨_, more, rest, hcs, ?_, hrest⟩
    rw [encodeChar_four hx5 htop hmid hlow (by omega) (by omega), ← hx, ← hb]
    rfl

end

theorem eq_encode_of_decodeFrom {bytes : List UInt8} {cs : List Char}
    (h : decodeFrom none bytes = cs.map some) : bytes = encode cs := by
  induction cs generalizing bytes with
  | nil =>
    cases bytes with
    | nil => rfl
    | cons b rest =>
      obtain ⟨_, _, _, hcs, -⟩ := exists_encodeChar h
      cases hcs
  | cons c cs ih =>
    cases bytes with
    | nil => cases h
    | cons b rest =>
      obtain ⟨_, _, rest', hcs, hbytes, hrest⟩ := exists_encodeChar h
      obtain ⟨rfl, rfl⟩ := List.cons.inj hcs
      rw [hbytes, ih hrest]
      rfl

theorem eq_map_some_of_mapM {pieces : List (Option Char)} {cs : List Char}
    (h : pieces.mapM id = some cs) : pieces = cs.map some := by
  induction pieces generalizing cs with
  | nil =>
    cases h
    rfl
  | cons piece rest ih =>
    rw [List.mapM_cons] at h
    obtain ⟨c, hc, h⟩ := Option.bind_eq_some_iff.1 h
    obtain ⟨more, hmore, h⟩ := Option.bind_eq_some_iff.1 h
    cases h
    rw [ih hmore, List.map_cons, ← hc, id]

/-- Bytes decode if they encode a text, and then to that text. -/
theorem decode?_eq_some_iff {bytes : List UInt8} {cs : List Char} :
    decode? bytes = some cs ↔ bytes = encode cs := by
  constructor
  · intro h
    exact eq_encode_of_decodeFrom (eq_map_some_of_mapM h)
  · rintro rfl
    exact decode?_encode cs

theorem encode_injective : Function.Injective encode := by
  intro cs ds h
  have hdecode := congrArg decode? h
  rw [decode?_encode, decode?_encode] at hdecode
  exact Option.some.inj hdecode

/-! ## Characters of one byte -/

/-- A byte below 0x80 is the only byte of its character. -/
theorem toNat_of_mem_encodeChar {c : Char} {b : UInt8} (hb : b ∈ String.utf8EncodeChar c)
    (hlow : b.toNat < 0x80) : c.toNat = b.toNat := by
  have hval : c.val.toNat = c.toNat := rfl
  simp only [String.utf8EncodeChar, hval] at hb
  split at hb
  · obtain rfl := List.mem_singleton.1 hb
    rw [toNat_ofNat (by omega)]
  -- every byte of a longer form is 0x80 at least
  · exfalso
    repeat' split at hb
    all_goals
      simp only [List.mem_cons, List.not_mem_nil, or_false] at hb
      rcases hb with rfl | rfl | rfl | rfl
      all_goals
        rw [toNat_ofNat (by omega)] at hlow
        omega

theorem mem_of_byte_mem_encode {cs : List Char} {c : Char} (hc : c.toNat < 0x80)
    (h : UInt8.ofNat c.toNat ∈ encode cs) : c ∈ cs := by
  obtain ⟨d, hd, hmem⟩ := List.mem_flatMap.1 h
  have hbyte : (UInt8.ofNat c.toNat).toNat = c.toNat := toNat_ofNat (by omega)
  have heq := toNat_of_mem_encodeChar hmem (by omega)
  rw [hbyte] at heq
  rwa [← Char.toNat_inj.1 heq]

end CodeFolding.Utf8
