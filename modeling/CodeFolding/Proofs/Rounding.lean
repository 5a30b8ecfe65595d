import CodeFolding.Number.Fixed
import Mathlib.Algebra.Group.Nat.Defs

/-!
Arithmetic of floating numbers of 64 bits, by their mantissas.

A positive number has 53 bits of mantissa, and every operation computes a mantissa with further bits
and rounds it to 53. Numbers with such mantissas are in the order of their exponents and, where these
are the same, of their mantissas. Rounding keeps the order; so a quotient of two numbers, the second
not less than the first, is at most one, and a hundred times as much is at most a hundred.
-/

set_option autoImplicit false

namespace CodeFolding

open Float.Model Float.Model.UnpackedFloat

/-- A positive floating number with all bits of its mantissa. -/
structure Normal where
  mantissa : Nat
  exponent : Int
  low : 2 ^ 52 ≤ mantissa
  high : mantissa < 2 ^ 53

namespace Normal

theorem mantissa_pos (x : Normal) : 0 < x.mantissa := Nat.lt_of_lt_of_le (Nat.two_pow_pos 52) x.low

theorem log2_mantissa (x : Normal) : x.mantissa.log2 = 52 :=
  (Nat.log2_eq_iff (Nat.ne_of_gt x.mantissa_pos)).2 ⟨x.low, x.high⟩

/-- Of two numbers with all bits the one with the smaller exponent is less. -/
instance : LE Normal where
  le x y := x.exponent < y.exponent ∨ (x.exponent = y.exponent ∧ x.mantissa ≤ y.mantissa)

theorem le_def {x y : Normal} :
    x ≤ y ↔ x.exponent < y.exponent ∨ (x.exponent = y.exponent ∧ x.mantissa ≤ y.mantissa) := Iff.rfl

/-- A mantissa that rounding has carried out of its bits is halved. -/
def carried (m : Nat) (e : Int) (h : 2 ^ 52 ≤ m) : Normal :=
  if hm : m < 2 ^ 53 then ⟨m, e, h, hm⟩ else ⟨2 ^ 52, e + 1, Nat.le_refl _, by decide⟩

theorem exponent_carried (m : Nat) (e : Int) (h : 2 ^ 52 ≤ m) :
    e ≤ (carried m e h).exponent ∧ (carried m e h).exponent ≤ e + 1 := by
  rw [carried]
  split
  · exact ⟨Int.le_refl e, by dsimp only; omega⟩
  · exact ⟨by dsimp only; omega, Int.le_refl _⟩

theorem carried_le {m n : Nat} {e f : Int} {hm : 2 ^ 52 ≤ m} {hn : 2 ^ 52 ≤ n}
    (h : e < f ∨ (e = f ∧ m ≤ n)) : carried m e hm ≤ carried n f hn := by
  rw [le_def, carried, carried]
  split <;> split <;> dsimp only <;> omega

/-! ## Cutting off -/

/-- What is left of a mantissa, in the order of its value: whether half a unit follows, and whether
more does. -/
def weight (em : ExtendedMantissa) : Nat :=
  4 * em.mantissa + 2 * em.roundBit.toNat + em.stickyBit.toNat

theorem weight_shiftRightOne (em : ExtendedMantissa) :
    weight em.shiftRightOne = 2 * (weight em / 4) + min 1 (weight em % 4) := by
  obtain ⟨m, r, s⟩ := em
  have hbit : (m % 2 != 0).toNat = m % 2 := by
    rcases Nat.mod_two_eq_zero_or_one m with hm | hm <;> rw [hm] <;> rfl
  simp only [weight, ExtendedMantissa.shiftRightOne, hbit]
  cases r <;> cases s <;>
    simp only [Bool.or_false, Bool.or_true, Bool.toNat_false, Bool.toNat_true] <;> omega

theorem weight_div_four (em : ExtendedMantissa) : weight em / 4 = em.mantissa := by
  have hround := em.roundBit.toNat_lt
  have hsticky := em.stickyBit.toNat_lt
  rw [weight]
  omega

theorem roundedMantissa_eq (em : ExtendedMantissa) :
    em.roundedMantissa = (weight em + 1 + em.mantissa % 2) / 4 := by
  obtain ⟨m, r, s⟩ := em
  cases r <;> cases s <;>
    simp only [weight, ExtendedMantissa.roundedMantissa, ExtendedMantissa.accuracy,
      Accuracy.roundToNearestEven, Bool.toNat_false, Bool.toNat_true] <;> omega

theorem shift_succ (em : ExtendedMantissa) (k : Nat) :
    em >>> (k + 1) = (em >>> k).shiftRightOne := rfl

theorem weight_shift_le {a b : ExtendedMantissa} (h : weight a ≤ weight b) (k : Nat) :
    weight (a >>> k) ≤ weight (b >>> k) := by
  induction k with
  | zero => exact h
  | succ k ih =>
    rw [shift_succ, shift_succ, weight_shiftRightOne, weight_shiftRightOne]
    omega

theorem roundedMantissa_le {a b : ExtendedMantissa} (h : weight a ≤ weight b) :
    a.roundedMantissa ≤ b.roundedMantissa := by
  have ha := weight_div_four a
  have hb := weight_div_four b
  rw [roundedMantissa_eq, roundedMantissa_eq]
  -- only an odd mantissa and the even one above it are rounded towards each other
  rcases Nat.mod_two_eq_zero_or_one a.mantissa with hodd | hodd <;>
    rcases Nat.mod_two_eq_zero_or_one b.mantissa with hodd' | hodd' <;> rw [hodd, hodd'] <;> omega

theorem roundedMantissa_bounds (em : ExtendedMantissa) :
    em.mantissa ≤ em.roundedMantissa ∧ em.roundedMantissa ≤ em.mantissa + 1 := by
  have hmantissa := weight_div_four em
  rw [roundedMantissa_eq]
  omega

theorem mantissa_shift (em : ExtendedMantissa) (k : Nat) :
    (em >>> k).mantissa = em.mantissa / 2 ^ k := by
  induction k with
  | zero => simp [HShiftRight.hShiftRight, Nat.repeat]
  | succ k ih =>
    rw [shift_succ, ExtendedMantissa.shiftRightOne, ih, Nat.div_div_eq_div_mul, Nat.pow_succ]

theorem mantissa_ofMantissaAndAccuracy (m : Nat) (a : Accuracy) :
    (ExtendedMantissa.ofMantissaAndAccuracy m a).mantissa = m := by
  unfold ExtendedMantissa.ofMantissaAndAccuracy
  split <;> rfl

/-- The first 53 bits of a mantissa, rounded. -/
def cut (m : Nat) (a : Accuracy) : Nat :=
  (ExtendedMantissa.ofMantissaAndAccuracy m a >>> (m.log2 - 52)).roundedMantissa

theorem cut_bounds (m : Nat) (a : Accuracy) :
    m / 2 ^ (m.log2 - 52) ≤ cut m a ∧ cut m a ≤ m / 2 ^ (m.log2 - 52) + 1 := by
  have h := roundedMantissa_bounds (ExtendedMantissa.ofMantissaAndAccuracy m a >>> (m.log2 - 52))
  rwa [mantissa_shift, mantissa_ofMantissaAndAccuracy] at h

theorem log2_low {m : Nat} (h : 2 ^ 52 ≤ m) : 52 ≤ m.log2 := (Nat.le_log2 (by omega)).2 h

/-- Above its lowest bits a mantissa has 53 bits. -/
theorem shifted_bounds {m : Nat} (h : 2 ^ 52 ≤ m) :
    2 ^ 52 ≤ m / 2 ^ (m.log2 - 52) ∧ m / 2 ^ (m.log2 - 52) < 2 ^ 53 := by
  have hlog := log2_low h
  have hpos : 0 < 2 ^ (m.log2 - 52) := Nat.two_pow_pos _
  constructor
  · rw [Nat.le_div_iff_mul_le hpos, ← Nat.pow_add, Nat.add_sub_cancel' hlog]
    exact Nat.log2_self_le (by omega)
  · have hexp : 53 + (m.log2 - 52) = m.log2 + 1 := by omega
    rw [Nat.div_lt_iff_lt_mul hpos, ← Nat.pow_add, hexp]
    exact Nat.lt_log2_self

theorem cut_low {m : Nat} (h : 2 ^ 52 ≤ m) (a : Accuracy) : 2 ^ 52 ≤ cut m a :=
  Nat.le_trans (shifted_bounds h).1 (cut_bounds m a).1

theorem cut_le {m n : Nat} (h : m ≤ n) (hlog : m.log2 = n.log2) : cut m .exact ≤ cut n .exact := by
  refine roundedMantissa_le ?_
  rw [hlog]
  refine weight_shift_le ?_ _
  simp only [weight, ExtendedMantissa.ofMantissaAndAccuracy]
  omega

/-- A mantissa of 53 bits or more, rounded. -/
def rounded (m : Nat) (e : Int) (a : Accuracy) (h : 2 ^ 52 ≤ m) : Normal :=
  carried (cut m a) (e + (m.log2 - 52 : Nat)) (cut_low h a)

/-- The exponent of a rounded mantissa, up to a carry. -/
theorem exponent_rounded (m : Nat) (e : Int) (a : Accuracy) (h : 2 ^ 52 ≤ m) :
    e + (m.log2 - 52 : Nat) ≤ (rounded m e a h).exponent ∧
      (rounded m e a h).exponent ≤ e + (m.log2 - 52 : Nat) + 1 :=
  exponent_carried (cut m a) _ (cut_low h a)

def unpacked (x : Normal) : UnpackedFloat := .finite .positive x.mantissa x.exponent x.mantissa_pos

theorem finite_congr {s t : Sign} {m n : Nat} {e f : Int} {hm : 0 < m} {hn : 0 < n} (hs : s = t)
    (h : m = n) (he : e = f) : UnpackedFloat.finite s m e hm = .finite t n f hn := by
  subst hs h he
  rfl

theorem targetExponent_binary64 (e : Int) :
    Format.binary64.targetExponent e = max (e - 53) (-1074) := rfl

theorem targetExponent_eq (m : Nat) (e : Int) :
    Format.binary64.targetExponent (totalExponent m e) = max ((m.log2 : Int) + e - 52) (-1074) := by
  rw [targetExponent_binary64, totalExponent]
  omega

/-- A mantissa with all its bits is kept, and one that has one bit more is halved. -/
theorem shift_carried {m : Nat} {e : Int} (hlow : 2 ^ 52 ≤ m) (hhigh : m ≤ 2 ^ 53)
    (he : -1074 ≤ e) :
    (shiftToTargetExponent Format.binary64 m e .exact).1.mantissa = (carried m e hlow).mantissa ∧
      (shiftToTargetExponent Format.binary64 m e .exact).2 = (carried m e hlow).exponent := by
  rw [shiftToTargetExponent, targetExponent_eq, shiftToExponent, carried]
  by_cases hm : m < 2 ^ 53
  · have hlog : m.log2 = 52 := (Nat.log2_eq_iff (by omega)).2 ⟨hlow, hm⟩
    have hnone : (max ((m.log2 : Int) + e - 52) (-1074) - e).toNat = 0 := by omega
    rw [dif_pos hm, hnone]
    exact ⟨rfl, Int.add_zero e⟩
  · obtain rfl : m = 2 ^ 53 := by omega
    have hone : (max (((2 ^ 53 : Nat).log2 : Int) + e - 52) (-1074) - e).toNat = 1 := by
      rw [Nat.log2_two_pow]
      omega
    rw [dif_neg hm, hone]
    exact ⟨rfl, rfl⟩

theorem roundWithAccuracy_eq {m : Nat} {e : Int} (a : Accuracy) (h : 2 ^ 52 ≤ m)
    (he : -1074 ≤ e + (m.log2 - 52 : Nat)) :
    roundWithAccuracy Format.binary64 .positive m e a = (rounded m e a h).unpacked := by
  have hlog := log2_low h
  have htarget : (max ((m.log2 : Int) + e - 52) (-1074) - e).toNat = m.log2 - 52 := by omega
  have hcut : cut m a ≤ 2 ^ 53 := by
    have hup := (cut_bounds m a).2
    have hbelow := (shifted_bounds h).2
    omega
  obtain ⟨hmantissa, hexponent⟩ := shift_carried (cut_low h a) hcut he
  have hfirst : shiftToTargetExponent Format.binary64 m e a =
      (ExtendedMantissa.ofMantissaAndAccuracy m a >>> (m.log2 - 52), e + (m.log2 - 52 : Nat)) := by
    rw [shiftToTargetExponent, targetExponent_eq, shiftToExponent, htarget]
  have hne : (carried (cut m a) (e + (m.log2 - 52 : Nat)) (cut_low h a)).mantissa ≠ 0 :=
    Nat.ne_of_gt (mantissa_pos _)
  rw [roundWithAccuracy, hfirst]
  dsimp only
  rw [← cut, dif_neg (by rwa [hmantissa])]
  exact finite_congr rfl hmantissa hexponent

/-! ## Floating numbers in 64 bits -/

def float (x : Normal) : Float := .ofModel (.pack x.unpacked)

/-- An exponent that eleven bits can hold. -/
def InRange (x : Normal) : Prop := -1074 ≤ x.exponent ∧ x.exponent ≤ 971

/-- The eleven bits of the exponent. -/
def exponentBits (x : Normal) : BitVec 11 := .ofNat 11 (x.exponent + 1075).toNat

/-- The bits of the mantissa without the leading one. -/
def fractionBits (x : Normal) : BitVec 52 := .ofNat 52 x.mantissa

theorem toNat_exponentBits {x : Normal} (h : x.InRange) :
    x.exponentBits.toNat = (x.exponent + 1075).toNat := by
  obtain ⟨hleast, hmost⟩ := h
  rw [exponentBits, BitVec.toNat_ofNat]
  exact Nat.mod_eq_of_lt (by omega)

theorem toNat_fractionBits (x : Normal) : x.fractionBits.toNat = x.mantissa - 2 ^ 52 := by
  have hlow := x.low
  have hhigh := x.high
  rw [fractionBits, BitVec.toNat_ofNat]
  omega

/-- The leading bit and the others. -/
theorem toNat_leading (x : Normal) : (1#1 ++ x.fractionBits).toNat = x.mantissa := by
  have hlow := x.low
  have hhigh := x.high
  have hlead : (1#1).toNat <<< 52 = 2 ^ 52 := rfl
  rw [BitVec.toNat_append, toNat_fractionBits, ← Nat.shiftLeft_add_eq_or_of_lt (by omega), hlead]
  omega

theorem exponentBias_eq : (Format.binary64.exponentBias : Int) = 1023 := rfl

theorem toBits_float {x : Normal} (h : x.InRange) : x.float.toBits.toBitVec =
    packComponents Format.binary64 .positive x.exponentBits x.fractionBits := by
  obtain ⟨hleast, hmost⟩ := h
  have hexponent : (x.exponent + (Format.binary64.exponentBias : Int) + (52 : Nat)).toNat =
      (x.exponent + 1075).toNat := by
    rw [exponentBias_eq]
    omega
  have hfinite :
      ¬ 2 ^ 11 ≤ (x.exponent + (Format.binary64.exponentBias : Int) + (52 : Nat)).toNat + 1 := by
    omega
  have hall : x.mantissa.log2 + 1 = Format.binary64.mantissaBits := by
    rw [log2_mantissa]
    rfl
  have hpack : UnpackedFloat.pack Format.binary64 x.unpacked =
      packComponents Format.binary64 .positive
        (.ofNat 11 (x.exponent + (Format.binary64.exponentBias : Int) + (52 : Nat)).toNat)
        x.fractionBits := (if_neg hfinite).trans (if_pos hall)
  rw [hexponent] at hpack
  exact hpack

theorem unpackSign_positive (e : BitVec 11) (m : BitVec 52) :
    unpackSign (packComponents Format.binary64 .positive e m) = 0#1 := by
  have hsign : (Sign.positive.toBitVec ++ e ++ m).extractLsb' 63 1 = 0#1 := by
    rw [BitVec.extractLsb'_append_eq_of_le (by decide),
      BitVec.extractLsb'_append_eq_of_le (by decide)]
    rfl
  exact hsign

/-- An exponent with zeros and ones is that of a number with all bits. -/
theorem unpack_packComponents {e : BitVec 11} {m : BitVec 52} (hones : e ≠ -1#11) (hzeros : e ≠ 0#11)
    (hpos : 0 < (1#1 ++ m).toNat) :
    UnpackedFloat.unpack Format.binary64 (packComponents Format.binary64 .positive e m) =
      .finite .positive (1#1 ++ m).toNat
        ((e.toNat : Int) - (Format.binary64.exponentBias + (52 : Nat) : Int)) hpos := by
  have hsign : Sign.ofBitVec (unpackSign (packComponents Format.binary64 .positive e m)) =
      .positive := by
    rw [unpackSign_positive]
    rfl
  have hexponent : unpackExponent (packComponents Format.binary64 .positive e m) = e :=
    unpackExponent_packComponents
  have hmantissa : unpackMantissa (packComponents Format.binary64 .positive e m) = m :=
    unpackMantissa_packComponents
  refine ((if_neg ?_).trans (if_neg ?_)).trans (finite_congr hsign ?_ ?_)
  · exact fun h => hones (hexponent.symm.trans h)
  · exact fun h => hzeros (hexponent.symm.trans h)
  · exact congrArg (fun m : BitVec 52 => (1#1 ++ m).toNat) hmantissa
  · rw [hexponent]

theorem unpack_float {x : Normal} (h : x.InRange) : x.float.toModel.unpack = x.unpacked := by
  have hexponent := toNat_exponentBits h
  have hbits := toBits_float h
  obtain ⟨hleast, hmost⟩ := h
  have hne : ∀ b : BitVec 11, (x.exponent + 1075).toNat ≠ b.toNat → x.exponentBits ≠ b := by
    intro b hdiffers heq
    exact hdiffers (hexponent.symm.trans (congrArg BitVec.toNat heq))
  have hones : x.exponentBits ≠ -1#11 := hne _ fun hall => by
    have hvalue : (-1#11).toNat = 2047 := rfl
    omega
  have hzeros : x.exponentBits ≠ 0#11 := hne _ fun hnone => by
    have hvalue : (0#11).toNat = 0 := rfl
    omega
  have hpos : 0 < (1#1 ++ x.fractionBits).toNat := by
    rw [toNat_leading]
    exact x.mantissa_pos
  have hvalue : (x.exponentBits.toNat : Int) - (Format.binary64.exponentBias + (52 : Nat) : Int) =
      x.exponent := by
    rw [hexponent, exponentBias_eq]
    omega
  have hunpack : x.float.toModel.unpack =
      UnpackedFloat.unpack Format.binary64 x.float.toBits.toBitVec := rfl
  rw [hunpack, hbits, unpack_packComponents hones hzeros hpos]
  exact finite_congr rfl x.toNat_leading hvalue

/-- The leading bit of the mantissa carries into the exponent. -/
theorem toNat_toBits {x : Normal} (h : x.InRange) :
    x.float.toBits.toNat = (x.exponent + 1074).toNat * 2 ^ 52 + x.mantissa := by
  have hlow := x.low
  have hhigh := x.high
  have hbits : x.float.toBits.toNat =
      (Sign.positive.toBitVec ++ x.exponentBits ++ x.fractionBits).toNat :=
    congrArg BitVec.toNat (toBits_float h)
  have hsign : Sign.positive.toBitVec.toNat <<< 11 = 0 := rfl
  rw [hbits, BitVec.toNat_append, BitVec.toNat_append, hsign, Nat.zero_or, toNat_exponentBits h,
    toNat_fractionBits, ← Nat.shiftLeft_add_eq_or_of_lt (by omega), Nat.shiftLeft_eq]
  obtain ⟨hleast, hmost⟩ := h
  omega

theorem ofFloat_float {x : Normal} (h : x.InRange) :
    Binary.ofFloat x.float = .finite false x.mantissa x.exponent := by
  have hbits := toNat_toBits h
  have hlow := x.low
  have hhigh := x.high
  obtain ⟨hleast, hmost⟩ := h
  have hunit : 1 <<< 52 = 2 ^ 52 := rfl
  have hsign : ¬ 1 <<< 63 ≤ x.float.toBits.toNat := by omega
  have hexponent : x.float.toBits.toNat / 2 ^ 52 % 2048 = (x.exponent + 1075).toNat := by omega
  have hfraction : x.float.toBits.toNat % 2 ^ 52 = x.mantissa - 2 ^ 52 := by omega
  have hfinite : (x.exponent + 1075).toNat ≠ 2047 := by omega
  have hnormal : (x.exponent + 1075).toNat ≠ 0 := by omega
  have hmantissa : 2 ^ 52 + (x.mantissa - 2 ^ 52) = x.mantissa := by omega
  have hvalue : ((x.exponent + 1075).toNat : Int) - 1075 = x.exponent := by omega
  rw [Binary.ofFloat]
  simp only [hunit, hsign, hexponent, hfraction, if_neg hfinite, if_neg hnormal, hmantissa, hvalue,
    decide_false]

theorem le_iff_compare {x y : Float} :
    x ≤ y ↔ (x.toModel.unpack.compare y.toModel.unpack).any (·.isLE) = true :=
  decide_eq_true_iff

theorem float_le_float {x y : Normal} (hx : x.InRange) (hy : y.InRange) (h : x ≤ y) :
    x.float ≤ y.float := by
  have hcompare : x.unpacked.compare y.unpacked =
      some ((compare x.exponent y.exponent).then (compare x.mantissa y.mantissa)) := rfl
  rw [le_iff_compare, unpack_float hx, unpack_float hy, hcompare, Option.any_some,
    Ordering.isLE_then_iff_or]
  rcases le_def.1 h with hexponent | ⟨hexponent, hmantissa⟩
  · exact .inl (Int.compare_eq_lt.2 hexponent)
  · exact .inr ⟨by rw [hexponent]; simp, Nat.isLE_compare.2 hmantissa⟩

theorem zero_le_float {x : Normal} (hx : x.InRange) : 0 ≤ x.float := by
  rw [le_iff_compare, unpack_float hx]
  rfl

/-! ## Arithmetic -/

theorem mul_low (x y : Normal) : 2 ^ 52 ≤ x.mantissa * y.mantissa :=
  Nat.le_trans x.low (Nat.le_mul_of_pos_right _ y.mantissa_pos)

theorem div_low (x y : Normal) : 2 ^ 52 ≤ (x.mantissa <<< 53) / y.mantissa := by
  have hx := x.low
  have hy := y.high
  rw [Nat.le_div_iff_mul_le y.mantissa_pos, Nat.shiftLeft_eq]
  omega

theorem ofNat_low {n : Nat} (h : 0 < n) : 2 ^ 52 ≤ n <<< (52 - n.log2) := by
  have hlog := Nat.log2_self_le (Nat.ne_of_gt h)
  have hpow : 2 ^ 52 ≤ 2 ^ n.log2 * 2 ^ (52 - n.log2) := by
    rw [← Nat.pow_add]
    exact Nat.pow_le_pow_right (by decide) (by omega)
  rw [Nat.shiftLeft_eq]
  exact Nat.le_trans hpow (Nat.mul_le_mul_right _ hlog)

def ofNat (n : Nat) (h : 0 < n) : Normal :=
  rounded (n <<< (52 - n.log2)) (-(52 - n.log2 : Nat)) .exact (ofNat_low h)

def mul (x y : Normal) : Normal :=
  rounded (x.mantissa * y.mantissa) (x.exponent + y.exponent) .exact (mul_low x y)

def div (x y : Normal) : Normal :=
  rounded ((x.mantissa <<< 53) / y.mantissa) (x.exponent - y.exponent - 53)
    (accuracyOfFraction ((x.mantissa <<< 53) % y.mantissa) y.mantissa) (div_low x y)

theorem mul_unpacked {x y : Normal} (he : -1022 ≤ x.exponent + y.exponent) :
    UnpackedFloat.mul Format.binary64 x.unpacked y.unpacked = (mul x y).unpacked := by
  have hround : UnpackedFloat.mul Format.binary64 x.unpacked y.unpacked =
      roundWithAccuracy Format.binary64 .positive (x.mantissa * y.mantissa)
        (x.exponent + y.exponent) .exact := rfl
  rw [hround, roundWithAccuracy_eq _ (mul_low x y) (by omega), mul]

theorem float_mul {x y : Normal} (hx : x.InRange) (hy : y.InRange)
    (he : -1022 ≤ x.exponent + y.exponent) : x.float * y.float = (mul x y).float := by
  have hmul : x.float * y.float = .ofModel (.pack (UnpackedFloat.mul Format.binary64
      x.float.toModel.unpack y.float.toModel.unpack)) := rfl
  rw [hmul, unpack_float hx, unpack_float hy, mul_unpacked he, float]

/-- A quotient is computed with 53 further bits. -/
theorem divCore_eq {x y : Normal} (he : -1021 ≤ x.exponent - y.exponent) :
    divCore Format.binary64 x.mantissa x.exponent y.mantissa y.exponent =
      ((x.mantissa <<< 53) / y.mantissa, x.exponent - y.exponent - 53,
        accuracyOfFraction ((x.mantissa <<< 53) % y.mantissa) y.mantissa) := by
  have htarget : min (x.exponent - y.exponent) (Format.binary64.targetExponent
      (totalExponent x.mantissa x.exponent - totalExponent y.mantissa y.exponent)) =
      x.exponent - y.exponent - 53 := by
    rw [targetExponent_binary64, totalExponent, totalExponent, log2_mantissa, log2_mantissa]
    omega
  have hshift : (x.exponent - y.exponent - (x.exponent - y.exponent - 53)).toNat = 53 := by omega
  simp only [divCore, htarget, hshift]

theorem div_unpacked {x y : Normal} (he : -1021 ≤ x.exponent - y.exponent) :
    UnpackedFloat.div Format.binary64 x.unpacked y.unpacked = (div x y).unpacked := by
  have hround : UnpackedFloat.div Format.binary64 x.unpacked y.unpacked =
      match divCore Format.binary64 x.mantissa x.exponent y.mantissa y.exponent with
      | (m, e, a) => roundWithAccuracy Format.binary64 .positive m e a := rfl
  rw [hround, divCore_eq he]
  dsimp only
  rw [roundWithAccuracy_eq _ (div_low x y) (by omega), div]

theorem float_div {x y : Normal} (hx : x.InRange) (hy : y.InRange)
    (he : -1021 ≤ x.exponent - y.exponent) : x.float / y.float = (div x y).float := by
  have hdiv : x.float / y.float = .ofModel (.pack (UnpackedFloat.div Format.binary64
      x.float.toModel.unpack y.float.toModel.unpack)) := rfl
  rw [hdiv, unpack_float hx, unpack_float hy, div_unpacked he, float]

theorem zero_div_float {y : Normal} (hy : y.InRange) : 0 / y.float = 0 := by
  have hdiv : 0 / y.float = .ofModel (.pack (UnpackedFloat.div Format.binary64
      (.zero .positive) y.float.toModel.unpack)) := rfl
  rw [hdiv, unpack_float hy]
  rfl

/-- A number below `2 ^ 52` is shifted until it has all bits, a greater one is cut. -/
theorem log2_shiftLeft {n : Nat} (h : 0 < n) :
    (n <<< (52 - n.log2)).log2 = n.log2 + (52 - n.log2) := by
  have hlow := ofNat_low h
  have hne : n <<< (52 - n.log2) ≠ 0 := by omega
  refine (Nat.log2_eq_iff hne).2 ?_
  rw [Nat.shiftLeft_eq, Nat.pow_add, Nat.pow_succ, Nat.pow_add, Nat.mul_right_comm, ← Nat.pow_succ]
  exact ⟨Nat.mul_le_mul_right _ (Nat.log2_self_le (Nat.ne_of_gt h)),
    Nat.mul_lt_mul_of_pos_right Nat.lt_log2_self (Nat.two_pow_pos _)⟩

theorem round_eq {n : Nat} (h : 0 < n) :
    UnpackedFloat.round Format.binary64 .positive n 0 = (ofNat n h).unpacked := by
  have hshift : ((0 : Int) - max ((n.log2 : Int) + 0 - 52) (-1074)).toNat = 52 - n.log2 := by omega
  rw [UnpackedFloat.round, targetExponent_eq, decreaseExponent, hshift]
  dsimp only
  rw [Int.zero_sub, roundWithAccuracy_eq _ (ofNat_low h) (by rw [log2_shiftLeft h]; omega)]
  rfl

theorem toFloat_word {w : UInt64} (h : 0 < w.toNat) : w.toFloat = (ofNat w.toNat h).float := by
  have hround : w.toFloat =
      .ofModel (.pack (UnpackedFloat.normalize Format.binary64 w.toNat 0 .positive)) := rfl
  have hpositive : compare (w.toNat : Int) 0 = .gt := Int.compare_eq_gt.2 (by omega)
  rw [hround, UnpackedFloat.normalize, hpositive]
  dsimp only
  rw [Int.toNat_natCast, round_eq h]
  rfl

theorem exponent_ofNat {n : Nat} (h : 0 < n) (hn : n < 1 <<< 64) :
    -52 ≤ (ofNat n h).exponent ∧ (ofNat n h).exponent ≤ 12 := by
  have hlog : n.log2 < 64 := (Nat.log2_lt (Nat.ne_of_gt h)).2 hn
  have hexponent :=
    exponent_rounded (n <<< (52 - n.log2)) (-(52 - n.log2 : Nat)) .exact (ofNat_low h)
  rw [log2_shiftLeft h] at hexponent
  rw [ofNat]
  omega

theorem log2_quotient_lt {x y : Normal} {k : Nat} (h : x.mantissa * 2 ^ 53 < 2 ^ k * y.mantissa) :
    ((x.mantissa <<< 53) / y.mantissa).log2 < k := by
  have hlow := div_low x y
  rw [Nat.log2_lt (by omega), Nat.shiftLeft_eq, Nat.div_lt_iff_lt_mul y.mantissa_pos]
  exact h

theorem exponent_div (x y : Normal) : x.exponent - y.exponent - 53 ≤ (div x y).exponent ∧
    (div x y).exponent ≤ x.exponent - y.exponent - 50 := by
  have hx := x.high
  have hy := y.low
  have hlog : ((x.mantissa <<< 53) / y.mantissa).log2 < 54 := log2_quotient_lt (by omega)
  have hexponent := exponent_rounded _ (x.exponent - y.exponent - 53)
    (accuracyOfFraction ((x.mantissa <<< 53) % y.mantissa) y.mantissa) (div_low x y)
  rw [div]
  omega

theorem exponent_mul (x y : Normal) : x.exponent + y.exponent + 52 ≤ (mul x y).exponent ∧
    (mul x y).exponent ≤ x.exponent + y.exponent + 54 := by
  have hlow := mul_low x y
  have hproduct : 2 ^ 52 * 2 ^ 52 ≤ x.mantissa * y.mantissa := Nat.mul_le_mul x.low y.low
  have hbound : x.mantissa * y.mantissa < 2 ^ 53 * 2 ^ 53 := Nat.mul_lt_mul'' x.high y.high
  have hleast : 104 ≤ (x.mantissa * y.mantissa).log2 := (Nat.le_log2 (by omega)).2 hproduct
  have hmost : (x.mantissa * y.mantissa).log2 < 106 := (Nat.log2_lt (by omega)).2 hbound
  have hexponent := exponent_rounded _ (x.exponent + y.exponent) .exact hlow
  rw [mul]
  omega

/-! ## Order -/

theorem ofNat_le {m n : Nat} (hm : 0 < m) (h : m ≤ n) :
    ofNat m hm ≤ ofNat n (Nat.lt_of_lt_of_le hm h) := by
  have hn : 0 < n := Nat.lt_of_lt_of_le hm h
  have hlog : m.log2 ≤ n.log2 := (Nat.le_log2 (Nat.ne_of_gt hn)).2
    (Nat.le_trans (Nat.log2_self_le (Nat.ne_of_gt hm)) h)
  refine carried_le ?_
  rw [log2_shiftLeft hm, log2_shiftLeft hn]
  rcases Nat.lt_or_eq_of_le hlog with hlt | heq
  · exact .inl (by omega)
  · refine .inr ⟨by omega, cut_le ?_ ?_⟩
    · rw [heq, Nat.shiftLeft_eq, Nat.shiftLeft_eq]
      exact Nat.mul_le_mul_right _ h
    · rw [log2_shiftLeft hm, log2_shiftLeft hn, heq]

def one : Normal := ⟨2 ^ 52, -52, by decide, by decide⟩

def hundred : Normal := ⟨100 * 2 ^ 46, -46, by decide, by decide⟩

theorem hundred_float : hundred.float = 100 := by decide +kernel

/-- If a number is less than another, their quotient has a smaller exponent than one. -/
theorem div_le_one {x y : Normal} (h : x ≤ y) : div x y ≤ one := by
  have hone : carried (2 ^ 52) (-52) (Nat.le_refl _) = one := dif_pos (by decide)
  have hx := x.high
  have hy := y.low
  rw [div, rounded, ← hone]
  refine carried_le ?_
  rcases le_def.1 h with hexponent | ⟨hexponent, hmantissa⟩
  · have hlog : ((x.mantissa <<< 53) / y.mantissa).log2 < 54 := log2_quotient_lt (by omega)
    exact .inl (by omega)
  rcases Nat.lt_or_eq_of_le hmantissa with hlt | heq
  · have hlog : ((x.mantissa <<< 53) / y.mantissa).log2 < 53 := log2_quotient_lt (by omega)
    exact .inl (by omega)
  · have hquotient : (x.mantissa <<< 53) / y.mantissa = 2 ^ 53 := by
      rw [heq, Nat.shiftLeft_eq, Nat.mul_div_cancel_left _ y.mantissa_pos]
    have hrest : (x.mantissa <<< 53) % y.mantissa = 0 := by
      rw [heq, Nat.shiftLeft_eq, Nat.mul_mod_right]
    have hexact : accuracyOfFraction 0 y.mantissa = .exact := if_pos rfl
    have hcut : cut (2 ^ 53) .exact = 2 ^ 52 := by decide
    rw [hquotient, hrest, hexact, hcut, Nat.log2_two_pow]
    exact .inr ⟨by omega, Nat.le_refl _⟩

theorem mul_hundred_le {x : Normal} (h : x ≤ one) : mul x hundred ≤ hundred := by
  have hhundred : carried (100 * 2 ^ 46) (-46) (by decide) = hundred := dif_pos (by decide)
  have hx := x.high
  have hlow : 2 ^ 52 ≤ x.mantissa * (100 * 2 ^ 46) := mul_low x hundred
  have hlog : (x.mantissa * (100 * 2 ^ 46)).log2 < 106 := by
    rw [Nat.log2_lt (by omega)]
    omega
  have hproduct : mul x hundred =
      rounded (x.mantissa * (100 * 2 ^ 46)) (x.exponent + -46) .exact hlow := rfl
  have hcut := (cut_bounds (x.mantissa * (100 * 2 ^ 46)) .exact).2
  rw [hproduct, rounded]
  refine hhundred ▸ carried_le ?_
  rcases le_def.1 h with hless | ⟨hequal, hleast⟩
  · have hsmall : x.exponent < -52 := hless
    by_cases hbits : (x.mantissa * (100 * 2 ^ 46)).log2 = 105
    · rw [hbits] at hcut ⊢
      have hquotient : x.mantissa * (100 * 2 ^ 46) / 2 ^ 53 < 100 * 2 ^ 46 := by
        rw [Nat.div_lt_iff_lt_mul (by decide)]
        omega
      have hfits := Nat.le_trans hcut hquotient
      omega
    · exact .inl (by omega)
  · have hmantissa : x.mantissa = 2 ^ 52 := Nat.le_antisymm hleast x.low
    have hcut : cut (2 ^ 52 * (100 * 2 ^ 46)) .exact = 100 * 2 ^ 46 := by decide +kernel
    have hbits : (2 ^ 52 * (100 * 2 ^ 46)).log2 = 104 := by decide +kernel
    have hexponent : x.exponent = -52 := hequal
    rw [hmantissa, hexponent, hcut, hbits]
    exact .inr ⟨rfl, Nat.le_refl _⟩

/-! ## Percentages -/

theorem ofNat_inRange {n : Nat} (h : 0 < n) (hn : n < 1 <<< 64) : (ofNat n h).InRange := by
  have hexponent := exponent_ofNat h hn
  exact ⟨by omega, by omega⟩

/-- How many in a hundred one number is of another. -/
def percent (x y : Normal) : Normal := mul (div x y) hundred

theorem percent_le {x y : Normal} (h : x ≤ y) : percent x y ≤ hundred :=
  mul_hundred_le (div_le_one h)

/-- Numbers of 64 bits are far from the ends of the exponents, and so is their percentage. -/
theorem float_percent {m n : Nat} (hm : 0 < m) (hn : 0 < n) (hmword : m < 1 <<< 64)
    (hnword : n < 1 <<< 64) : (percent (ofNat m hm) (ofNat n hn)).InRange ∧
    (ofNat m hm).float / (ofNat n hn).float * 100 = (percent (ofNat m hm) (ofNat n hn)).float := by
  have hfirst := exponent_ofNat hm hmword
  have hsecond := exponent_ofNat hn hnword
  have hdiv := exponent_div (ofNat m hm) (ofNat n hn)
  have hmul := exponent_mul (div (ofNat m hm) (ofNat n hn)) hundred
  have hhundred : hundred.exponent = -46 := rfl
  have hquotient : (div (ofNat m hm) (ofNat n hn)).InRange := ⟨by omega, by omega⟩
  have hproduct : (percent (ofNat m hm) (ofNat n hn)).InRange := by
    rw [percent]
    exact ⟨by omega, by omega⟩
  refine ⟨hproduct, ?_⟩
  rw [float_div (ofNat_inRange hm hmword) (ofNat_inRange hn hnword) (by omega), ← hundred_float,
    float_mul hquotient ⟨by omega, by omega⟩ (by omega)]
  rfl

/-! ## The printed text -/

/-- What is printed of a number with some places behind the point, in units of the last place. -/
def printed (places : Nat) (x : Normal) : Nat :=
  let r := Ratio.scaled x.mantissa 2 x.exponent
  Ratio.roundEven ⟨r.num * Nat.pow 10 places, r.den⟩

theorem fixed_float {x : Normal} (h : x.InRange) (places : Nat) :
    (Binary.ofFloat x.float).fixed places = fixedDigits places (x.printed places) := by
  rw [ofFloat_float h]
  rfl

end Normal

theorem Ratio.roundEven_le {r : Ratio} {n : Nat} (hden : 0 < r.den) (h : r.num ≤ n * r.den) :
    r.roundEven ≤ n := by
  have hquotient : r.num / r.den ≤ n := Nat.div_le_of_le_mul (by rwa [Nat.mul_comm])
  have hparts := Nat.div_add_mod r.num r.den
  rcases Nat.lt_or_eq_of_le hquotient with hlt | heq
  · rw [roundEven]
    split
    · omega
    · split
      · omega
      · split <;> omega
  · have hrest : r.num % r.den = 0 := by
      rw [heq, Nat.mul_comm] at hparts
      omega
    simp only [roundEven, hrest, if_pos hden, heq, Nat.mul_zero, Nat.le_refl]

theorem Normal.printed_le_hundred {x : Normal} (h : x ≤ hundred) (places : Nat) :
    x.printed places ≤ 100 * 10 ^ places := by
  have hx := x.high
  have horder : x.exponent < -46 ∨ (x.exponent = -46 ∧ x.mantissa ≤ 100 * 2 ^ 46) := h
  have hnegative : x.exponent < 0 := by omega
  have hvalue : x.mantissa ≤ 100 * 2 ^ x.exponent.natAbs := by
    rcases horder with hless | ⟨hequal, hmantissa⟩
    · have hunits : 2 ^ 47 ≤ 2 ^ x.exponent.natAbs := Nat.pow_le_pow_right (by decide) (by omega)
      omega
    · rwa [hequal]
  rw [printed, Ratio.scaled, if_pos hnegative]
  refine Ratio.roundEven_le (Nat.pow_pos (by decide)) ?_
  calc x.mantissa * 10 ^ places ≤ 100 * 2 ^ x.exponent.natAbs * 10 ^ places :=
        Nat.mul_le_mul_right _ hvalue
    _ = 100 * 10 ^ places * 2 ^ x.exponent.natAbs := Nat.mul_right_comm _ _ _

end CodeFolding
