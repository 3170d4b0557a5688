import FormulaEngine.Proofs.Nearest
import Mathlib

/-!
# Integers as decimals

An integer becomes the decimal nearest to it: its binary digits are shifted until 53 of them are
left, and what was shifted out decides how these are rounded. The order of the decimals is therefore
the order of the nearest decimals of the integers.
-/
namespace FormulaEngine.Decimal

open Float.Model Float.Model.UnpackedFloat

section Rounding

/-- The mantissa that is left of `m` after a division by `d`, and two bits on the remainder: that it
is half of `d` at least, and that it is neither zero nor just half. -/
structure IsQuotient (em : ExtendedMantissa) (m d : Nat) : Prop where
  mantissa : em.mantissa = m / d
  roundBit : em.roundBit = decide (d ≤ 2 * (m % d))
  stickyBit : em.stickyBit = decide (m % d ≠ 0 ∧ 2 * (m % d) ≠ d)

theorem isQuotient_shiftRight (m k : Nat) :
    IsQuotient (ExtendedMantissa.ofMantissaAndAccuracy m .exact >>> k) m (2 ^ k) := by
  induction k with
  | zero => constructor <;> simp [ExtendedMantissa.ofMantissaAndAccuracy, HShiftRight.hShiftRight,
      Nat.repeat, Nat.mod_one]
  | succ k ih =>
    have hstep : ExtendedMantissa.ofMantissaAndAccuracy m .exact >>> (k + 1) =
      (ExtendedMantissa.ofMantissaAndAccuracy m .exact >>> k).shiftRightOne := rfl
    have hpos : 0 < 2 ^ k := Nat.two_pow_pos k
    have hless : m % 2 ^ k < 2 ^ k := Nat.mod_lt m hpos
    have hremainder : m % 2 ^ (k + 1) = m % 2 ^ k + 2 ^ k * (m / 2 ^ k % 2) := by
      rw [Nat.pow_succ, Nat.mod_mul]
    rw [hstep]
    refine ⟨?_, ?_, ?_⟩
    · rw [ExtendedMantissa.shiftRightOne, ih.mantissa, Nat.div_div_eq_div_mul, Nat.pow_succ]
    · rw [ExtendedMantissa.shiftRightOne, ih.mantissa, hremainder, Nat.pow_succ]
      rcases Nat.mod_two_eq_zero_or_one (m / 2 ^ k) with hbit | hbit <;> simp [hbit] <;> omega
    · rw [ExtendedMantissa.shiftRightOne, ih.roundBit, ih.stickyBit, hremainder, Nat.pow_succ]
      rcases Nat.mod_two_eq_zero_or_one (m / 2 ^ k) with hbit | hbit <;> simp [hbit] <;> grind

theorem IsQuotient.roundedMantissa_eq {em : ExtendedMantissa} {m d : Nat} (h : IsQuotient em m d)
    (pos : 0 < d) : em.roundedMantissa = roundDiv m d := by
  obtain ⟨mantissa, round, sticky⟩ := em
  obtain ⟨hmantissa, hround, hsticky⟩ := h
  dsimp only at hmantissa hround hsticky
  subst hmantissa hround hsticky
  rw [ExtendedMantissa.roundedMantissa]
  by_cases hhalf : d ≤ 2 * (m % d)
  · by_cases hmore : m % d ≠ 0 ∧ 2 * (m % d) ≠ d
    · rw [roundDiv_of_gt (by omega)]
      simp [hhalf, hmore, ExtendedMantissa.accuracy, Accuracy.roundToNearestEven]
    · have hequal : 2 * (m % d) = d := by omega
      rw [roundDiv_of_eq hequal]
      simp [ExtendedMantissa.accuracy, Accuracy.roundToNearestEven, hequal]
  · rw [roundDiv_of_lt (Nat.not_le.1 hhalf)]
    by_cases hmore : m % d ≠ 0 ∧ 2 * (m % d) ≠ d
    · simp [hhalf, hmore, ExtendedMantissa.accuracy, Accuracy.roundToNearestEven]
    · simp only [hhalf, hmore, decide_false, ExtendedMantissa.accuracy,
        Accuracy.roundToNearestEven]

theorem targetExponent_eq (m : Nat) (e : Int) :
    Format.binary64.targetExponent (totalExponent m e) = max (m.log2 + e - 52) (-1074) := by
  have hbits : (Format.binary64.mantissaBits : Int) = 53 := rfl
  have hleast : Format.binary64.minExponent = -1074 := rfl
  rw [Format.targetExponent, totalExponent, hbits, hleast]
  omega

theorem shiftToTargetExponent_eq {m k : Nat} {e : Int} (digits : m.log2 = k + 52)
    (range : -1074 ≤ e + k) :
    shiftToTargetExponent .binary64 m e .exact =
      (ExtendedMantissa.ofMantissaAndAccuracy m .exact >>> k, e + k) := by
  have htarget : Format.binary64.targetExponent (totalExponent m e) = e + k := by
    rw [targetExponent_eq]
    omega
  have hamount : (e + k - e).toNat = k := by omega
  rw [shiftToTargetExponent, htarget, shiftToExponent, hamount]

theorem roundWithAccuracy_eq (sign : Sign) {m k : Nat} (e : Int) (digits : m.log2 = k + 52)
    (range : -1074 ≤ e + k) :
    (∃ pos, roundDiv m (2 ^ k) < 2 ^ 53 ∧ roundWithAccuracy .binary64 sign m e .exact =
      .finite sign (roundDiv m (2 ^ k)) (e + k) pos) ∨
    (∃ pos, roundDiv m (2 ^ k) = 2 ^ 53 ∧ roundWithAccuracy .binary64 sign m e .exact =
      .finite sign (2 ^ 52) (e + k + 1) pos) := by
  obtain ⟨hlow, hhigh⟩ := roundDiv_bounds digits
  have hround := (isQuotient_shiftRight m k).roundedMantissa_eq (Nat.two_pow_pos k)
  have hfinal (j : Nat) (hdigits : (roundDiv m (2 ^ k)).log2 = j + 52)
      (hpos : 0 < roundDiv m (2 ^ k) / 2 ^ j) :
      roundWithAccuracy .binary64 sign m e .exact =
        .finite sign (roundDiv m (2 ^ k) / 2 ^ j) (e + k + j) hpos := by
    have hmantissa := (isQuotient_shiftRight (roundDiv m (2 ^ k)) j).mantissa
    rw [roundWithAccuracy, shiftToTargetExponent_eq digits range]
    dsimp only
    rw [hround, shiftToTargetExponent_eq hdigits (by omega)]
    dsimp only
    rw [dif_neg (by omega)]
    congr 1
  rcases Nat.lt_or_eq_of_le hhigh with hlt | heq
  · left
    have hlog : (roundDiv m (2 ^ k)).log2 = 0 + 52 :=
      (Nat.log2_eq_iff (by omega)).2 ⟨hlow, hlt⟩
    have hresult := hfinal 0 hlog (by omega)
    simp only [Nat.pow_zero, Nat.div_one, Int.natCast_zero, Int.add_zero] at hresult
    exact ⟨by omega, hlt, hresult⟩
  · right
    have hlog : (roundDiv m (2 ^ k)).log2 = 1 + 52 := by
      rw [heq]
      decide
    have hresult := hfinal 1 hlog (by omega)
    simp only [heq] at hresult
    exact ⟨by decide, heq, hresult⟩

end Rounding

section Bits

variable (sign : Sign) {m j : Nat} (pos : 0 < m)

theorem pack_finite (low : 2 ^ 52 ≤ m) (high : m < 2 ^ 53) (range : j ≤ 64) :
    UnpackedFloat.pack .binary64 (.finite sign m (j - 52) pos) =
      packComponents .binary64 sign (BitVec.ofNat 11 (j + 1023)) (BitVec.ofNat 52 m) := by
  have hlog : m.log2 = 52 := (Nat.log2_eq_iff pos.ne').2 ⟨low, high⟩
  have hbias : Format.binary64.exponentBias = 1023 := rfl
  have hbits : Format.binary64.mantissaBits = 53 := rfl
  have hbiased : ((j : Int) - 52 + (1023 : Nat) + (52 : Nat)).toNat = j + 1023 := by omega
  simp only [UnpackedFloat.pack, hlog, hbias, hbits, hbiased]
  rw [if_neg (by omega), if_pos trivial]

theorem unpack_packComponents (low : 2 ^ 52 ≤ m) (high : m < 2 ^ 53) (range : j ≤ 64) :
    UnpackedFloat.unpack .binary64
        (packComponents .binary64 sign (BitVec.ofNat 11 (j + 1023)) (BitVec.ofNat 52 m)) =
      .finite sign m (j - 52) pos := by
  have hbias : Format.binary64.exponentBias = 1023 := rfl
  have hexponent : (BitVec.ofNat 11 (j + 1023)).toNat = j + 1023 := by
    rw [BitVec.toNat_ofNat, Nat.mod_eq_of_lt (by omega)]
  have hinfinite : BitVec.ofNat 11 (j + 1023) ≠ -1#11 := by
    intro h
    rw [h, show (-1#11).toNat = 2047 from rfl] at hexponent
    omega
  have hsubnormal : BitVec.ofNat 11 (j + 1023) ≠ 0#11 := by
    intro h
    rw [h, show (0#11).toNat = 0 from rfl] at hexponent
    omega
  have hmantissa : (1#1 ++ BitVec.ofNat 52 m).toNat = m := by
    have hrest : m % 2 ^ 52 < 2 ^ 52 := Nat.mod_lt m (by decide)
    rw [BitVec.toNat_append, show (BitVec.ofNat 52 m).toNat = m % 2 ^ 52 from rfl,
      ← Nat.shiftLeft_add_eq_or_of_lt hrest]
    change 2 ^ 52 + m % 2 ^ 52 = m
    omega
  simp only [UnpackedFloat.unpack, unpackMantissa_packComponents, unpackExponent_packComponents,
    unpackSign_packComponents, Sign.ofBitVec_toBitVec, hbias]
  rw [if_neg hinfinite, if_neg hsubnormal, UnpackedFloat.finite.injEq]
  refine ⟨rfl, hmantissa, ?_⟩
  rw [hexponent]
  push_cast
  omega

end Bits

/-- The float is the integer: zero, or one whose mantissa has all of its 53 digits. -/
inductive Represents : UnpackedFloat → Int → Prop where
  | zero (sign : Sign) : Represents (.zero sign) 0
  | finite (sign : Sign) {m j n : Nat} (pos : 0 < m) (low : 2 ^ 52 ≤ m) (high : m < 2 ^ 53)
      (range : j ≤ 64) (value : m * 2 ^ j = n * 2 ^ 52) :
    Represents (.finite sign m (j - 52) pos) (sign.apply n)

namespace Represents

variable {x y : UnpackedFloat} {a b : Int}

theorem neg (h : Represents x a) : Represents x.neg (-a) := by
  cases h with
  | zero sign => exact .zero (-sign)
  | @finite sign m j n pos low high range value =>
    have hopposite := Represents.finite (-sign) pos low high range value
    cases sign with
    | negative => rwa [show -Sign.negative.apply n = (-Sign.negative).apply n from Int.neg_neg _]
    | positive => exact hopposite

theorem unpack_pack (h : Represents x a) : (Float.Model.pack x).unpack = x := by
  change UnpackedFloat.unpack .binary64 (UnpackedFloat.pack .binary64 x) = x
  cases h with
  | zero sign => exact unpack_packedZero
  | @finite sign m j n pos low high range value =>
    rw [pack_finite sign pos low high range, unpack_packComponents sign pos low high range]

section Values

variable {m m' j j' n n' : Nat}

theorem pos_of_value (pos : 0 < m) (value : m * 2 ^ j = n * 2 ^ 52) : 0 < n := by
  have hproduct : 0 < m * 2 ^ j := Nat.mul_pos pos (Nat.two_pow_pos j)
  rw [value] at hproduct
  exact Nat.pos_of_mul_pos_right hproduct

theorem lt_of_exponent_lt (high : m < 2 ^ 53) (low' : 2 ^ 52 ≤ m')
    (value : m * 2 ^ j = n * 2 ^ 52) (value' : m' * 2 ^ j' = n' * 2 ^ 52) (less : j < j') :
    n < n' := by
  refine Nat.lt_of_mul_lt_mul_right (a := 2 ^ 52) ?_
  calc
    n * 2 ^ 52 = m * 2 ^ j := value.symm
    _ < 2 ^ 53 * 2 ^ j := Nat.mul_lt_mul_of_pos_right high (Nat.two_pow_pos j)
    _ = 2 ^ 52 * 2 ^ (j + 1) := by ring
    _ ≤ m' * 2 ^ j' := Nat.mul_le_mul low' (Nat.pow_le_pow_right (by decide) less)
    _ = n' * 2 ^ 52 := value'

theorem lt_iff_mantissa_lt (value : m * 2 ^ j = n * 2 ^ 52) (value' : m' * 2 ^ j = n' * 2 ^ 52) :
    m < m' ↔ n < n' := by
  rw [← Nat.mul_lt_mul_right (Nat.two_pow_pos j), value, value',
    Nat.mul_lt_mul_right (Nat.two_pow_pos 52)]

theorem compare_finite (low : 2 ^ 52 ≤ m) (high : m < 2 ^ 53) (low' : 2 ^ 52 ≤ m')
    (high' : m' < 2 ^ 53) (value : m * 2 ^ j = n * 2 ^ 52) (value' : m' * 2 ^ j' = n' * 2 ^ 52) :
    (compare ((j : Int) - 52) (j' - 52)).then (compare m m') = compare (n : Int) n' := by
  rcases lt_trichotomy j j' with hj | rfl | hj
  · have hn := lt_of_exponent_lt high low' value value' hj
    have hexponents : compare ((j : Int) - 52) (j' - 52) = .lt := compare_lt_iff_lt.2 (by omega)
    have hvalues : compare (n : Int) n' = .lt := compare_lt_iff_lt.2 (by omega)
    rw [hexponents, hvalues]
    rfl
  · have hexponents : compare ((j : Int) - 52) (j - 52) = .eq := compare_eq_iff_eq.2 rfl
    rw [hexponents, Ordering.eq_then]
    have hless := lt_iff_mantissa_lt value value'
    have hgreater := lt_iff_mantissa_lt value' value
    rcases lt_trichotomy m m' with hm | hm | hm
    · rw [compare_lt_iff_lt.2 hm, compare_lt_iff_lt.2 (Int.ofNat_lt.2 (hless.1 hm))]
    · have hn : n = n' := by omega
      rw [compare_eq_iff_eq.2 hm, compare_eq_iff_eq.2 (Int.ofNat_inj.2 hn)]
    · rw [compare_gt_iff_gt.2 hm, compare_gt_iff_gt.2 (Int.ofNat_lt.2 (hgreater.1 hm))]
  · have hn := lt_of_exponent_lt high' low value' value hj
    have hexponents : compare ((j : Int) - 52) (j' - 52) = .gt := compare_gt_iff_gt.2 (by omega)
    have hvalues : compare (n : Int) n' = .gt := compare_gt_iff_gt.2 (by omega)
    rw [hexponents, hvalues]
    rfl

end Values

theorem compare_eq (hx : Represents x a) (hy : Represents y b) :
    x.compare y = some (compare a b) := by
  cases hx with
  | zero sign =>
    cases hy with
    | zero sign' => rfl
    | @finite sign' m j n pos low high range value =>
      have hn : (0 : Int) < n := Int.ofNat_lt.2 (pos_of_value pos value)
      cases sign' with
      | negative => exact congrArg some (compare_gt_iff_gt.2 (Int.neg_neg_of_pos hn)).symm
      | positive => exact congrArg some (compare_lt_iff_lt.2 hn).symm
  | @finite sign m j n pos low high range value =>
    have hn : (0 : Int) < n := Int.ofNat_lt.2 (pos_of_value pos value)
    cases hy with
    | zero sign' =>
      cases sign with
      | negative => exact congrArg some (compare_lt_iff_lt.2 (Int.neg_neg_of_pos hn)).symm
      | positive => exact congrArg some (compare_gt_iff_gt.2 hn).symm
    | @finite sign' m' j' n' pos' low' high' range' value' =>
      have hn' : (0 : Int) < n' := Int.ofNat_lt.2 (pos_of_value pos' value')
      have hcompare := compare_finite low high low' high' value value'
      cases sign with
      | negative =>
        cases sign' with
        | negative =>
          have hflip : compare (n' : Int) n = (compare (n : Int) n').swap :=
            Std.OrientedCmp.eq_swap
          have hswap : compare (-(n : Int)) (-n') = (compare (n : Int) n').swap := by
            rw [← hflip]
            simp [compare, compareOfLessAndEq, eq_comm]
          exact congrArg some ((congrArg Ordering.swap hcompare).trans hswap.symm)
        | positive =>
          have hless : -(n : Int) < n' := by omega
          exact congrArg some (compare_lt_iff_lt.2 hless).symm
      | positive =>
        cases sign' with
        | negative =>
          have hless : -(n' : Int) < n := by omega
          exact congrArg some (compare_gt_iff_gt.2 hless).symm
        | positive => exact congrArg some hcompare

theorem mul_one (h : Represents x a) (pos : 0 < 2 ^ 52) :
    UnpackedFloat.mul .binary64 x (.finite .positive (2 ^ 52) (-52) pos) = x := by
  cases h with
  | zero sign => cases sign <;> rfl
  | @finite sign m j n hpos low high range value =>
    have hsign : sign * .positive = sign := by cases sign <;> rfl
    have hlog : (m * 2 ^ 52).log2 = 52 + 52 := by
      rw [log2_mul_two_pow hpos.ne', (Nat.log2_eq_iff hpos.ne').2 ⟨low, high⟩]
    have hround : roundDiv (m * 2 ^ 52) (2 ^ 52) = m := roundDiv_mul_self m (by decide)
    rw [UnpackedFloat.mul, hsign]
    rcases roundWithAccuracy_eq sign ((j : Int) - 52 + -52) hlog (by omega) with
      ⟨_, _, hresult⟩ | ⟨_, hcarry, _⟩
    · rw [hresult, UnpackedFloat.finite.injEq]
      exact ⟨rfl, hround, by omega⟩
    · omega

end Represents

section Conversion

variable {n : Nat}

/-- Rounding to 53 digits gives the nearest decimal, whatever binary digits are put behind the
number before. -/
theorem represents_roundWithAccuracy {s : Nat} (ne : n ≠ 0) (bound : n < 2 ^ 64)
    (fine : 52 ≤ n.log2 + s) :
    Represents (roundWithAccuracy .binary64 .positive (n * 2 ^ s) (-s) .exact) (nearestNat n) := by
  obtain ⟨k, hk⟩ : ∃ k, n.log2 + s = k + 52 := ⟨n.log2 + s - 52, by omega⟩
  have hlog : n.log2 < 64 := (Nat.log2_lt ne).2 bound
  have hdigits : (n * 2 ^ s).log2 = k + 52 := by rw [log2_mul_two_pow ne, hk]
  have hvalue : roundDiv (n * 2 ^ s) (2 ^ k) * 2 ^ n.log2 = nearestNat n * 2 ^ 52 := by
    refine Nat.eq_of_mul_eq_mul_right (Nat.two_pow_pos s) ?_
    calc
      roundDiv (n * 2 ^ s) (2 ^ k) * 2 ^ n.log2 * 2 ^ s =
          roundDiv (n * 2 ^ s) (2 ^ k) * 2 ^ k * 2 ^ 52 := by
        rw [Nat.mul_assoc, ← Nat.pow_add, hk, Nat.pow_add, Nat.mul_assoc]
      _ = nearestNat n * 2 ^ s * 2 ^ 52 := by rw [roundDiv_mul_pow hk]
      _ = nearestNat n * 2 ^ 52 * 2 ^ s := Nat.mul_right_comm _ _ _
  obtain ⟨hlow, _⟩ := roundDiv_bounds hdigits
  rcases roundWithAccuracy_eq .positive (-(s : Int)) hdigits (by omega) with
    ⟨pos, hlt, hresult⟩ | ⟨pos, hcarry, hresult⟩
  · have hexponent : -(s : Int) + k = (n.log2 : Nat) - 52 := by omega
    simp only [hresult, hexponent]
    exact .finite .positive pos hlow hlt hlog.le hvalue
  · have hexponent : -(s : Int) + k + 1 = (n.log2 + 1 : Nat) - 52 := by omega
    simp only [hresult, hexponent]
    refine .finite .positive pos (by decide) (by decide) hlog ?_
    rw [← hvalue, hcarry, Nat.pow_succ 2 n.log2]
    ring

theorem represents_ofUInt64 (ne : n ≠ 0) (small : n < 2 ^ 53) :
    Represents (UnpackedFloat.ofUInt64 .binary64 n.toUInt64) (nearestNat n) := by
  have hlog : n.log2 < 53 := (Nat.log2_lt ne).2 small
  have hn : n.toUInt64.toNat = n := Nat.mod_eq_of_lt (by omega)
  have hsign : compare (n : Int) 0 = .gt := compare_gt_iff_gt.2 (by omega)
  have htarget : Format.binary64.targetExponent (totalExponent n 0) = -(52 - n.log2 : Nat) := by
    rw [targetExponent_eq]
    omega
  have hamount : (0 - -((52 - n.log2 : Nat) : Int)).toNat = 52 - n.log2 := by omega
  rw [UnpackedFloat.ofUInt64, hn, UnpackedFloat.ofNat, UnpackedFloat.ofInt, UnpackedFloat.normalize,
    hsign]
  dsimp only
  rw [UnpackedFloat.round, Int.toNat_natCast, htarget, decreaseExponent, hamount, Nat.shiftLeft_eq,
    Int.zero_sub]
  exact represents_roundWithAccuracy ne (by omega) (by omega)

theorem represents_ofScientific (ne : n ≠ 0) (bound : n < 2 ^ 64) :
    Represents (UnpackedFloat.ofScientific .binary64 n 0) (nearestNat n) := by
  have hbits : (2 : Int) ^ Format.binary64.exponentBits = 2048 := rfl
  rw [UnpackedFloat.ofScientific, dif_neg ne, if_neg (by decide), if_neg (by omega),
    if_pos (by decide)]
  have hsign : Sign.positive * Sign.positive = .positive := rfl
  have hmantissa : n <<< Format.binary64.mantissaBits * 10 ^ (0 : Int).toNat = n * 2 ^ 53 := by
    rw [show Format.binary64.mantissaBits = 53 from rfl, Nat.shiftLeft_eq, Int.toNat_zero, pow_zero,
      Nat.mul_one]
  have hexponent : -(Format.binary64.mantissaBits : Int) + 0 = -(53 : Nat) := rfl
  rw [UnpackedFloat.mul, hsign, hmantissa, hexponent]
  exact represents_roundWithAccuracy ne bound (by omega)

theorem unpack_ofNat_of_small (ne : n ≠ 0) (small : n < 2 ^ 53) :
    (Float.ofNat n).toModel.unpack = UnpackedFloat.ofUInt64 .binary64 n.toUInt64 := by
  have hone : (Float.ofBits 0x3FF0000000000000).toModel.unpack =
      .finite .positive (2 ^ 52) (-52) (by decide) := rfl
  have hfloat : Float.ofNat n = n.toUInt64.toFloat * Float.ofBits 0x3FF0000000000000 := by
    change Float.ofScientific n false 0 = _
    rw [Float.ofScientific, dif_pos ⟨small, by decide⟩]
    rfl
  have hx := represents_ofUInt64 ne small
  have hfactor : (n.toUInt64.toFloat).toModel.unpack =
      UnpackedFloat.ofUInt64 .binary64 n.toUInt64 := hx.unpack_pack
  have hproduct : (Float.ofNat n).toModel.unpack =
      (Float.Model.pack (UnpackedFloat.mul .binary64 (n.toUInt64.toFloat).toModel.unpack
        (Float.ofBits 0x3FF0000000000000).toModel.unpack)).unpack := by
    rw [hfloat]
    rfl
  rw [hproduct, hfactor, hone, hx.mul_one, hx.unpack_pack]

theorem unpack_ofNat_of_large (bound : n < 2 ^ 64) (large : ¬ n < 2 ^ 53) :
    (Float.ofNat n).toModel.unpack = UnpackedFloat.ofScientific .binary64 n 0 := by
  have hfloat : Float.ofNat n = .ofModel (Float.Model.ofScientific n 0) := by
    change Float.ofScientific n false 0 = _
    rw [Float.ofScientific, dif_neg fun h => large h.1]
    rfl
  rw [hfloat]
  exact (represents_ofScientific (by omega) bound).unpack_pack

theorem represents_ofNat (bound : n < 2 ^ 64) :
    Represents (Float.ofNat n).toModel.unpack (nearestNat n) := by
  by_cases ne : n = 0
  · subst ne
    exact .zero .positive
  by_cases small : n < 2 ^ 53
  · rw [unpack_ofNat_of_small ne small]
    exact represents_ofUInt64 ne small
  · rw [unpack_ofNat_of_large bound small]
    exact represents_ofScientific ne bound

theorem represents_ofInteger (a : Int64) :
    Represents (ofInteger a).toModel.unpack (nearest a.toInt) := by
  have hlow := Int64.le_toInt a
  have hhigh := Int64.toInt_lt a
  rw [ofInteger]
  cases ha : a.toInt with
  | ofNat n =>
    rw [ha] at hhigh
    have hx : Represents (Float.ofNat n).toModel.unpack (nearestNat n) :=
      represents_ofNat (Int.ofNat_lt.1 (hhigh.trans (by decide)))
    rwa [← nearest_natCast] at hx
  | negSucc n =>
    rw [ha] at hlow
    have hx : Represents (Float.ofNat (n + 1)).toModel.unpack (nearestNat (n + 1)) :=
      represents_ofNat (by omega)
    have hunpacked : (Float.ofInt (.negSucc n)).toModel.unpack =
        (Float.ofNat (n + 1)).toModel.unpack.neg := hx.neg.unpack_pack
    rw [hunpacked, Int.negSucc_eq, nearest_neg]
    exact nearest_natCast (n + 1) ▸ hx.neg

section Order

variable {x y : Float} {a b : Int}

theorem lt_iff_of_represents (hx : Represents x.toModel.unpack a)
    (hy : Represents y.toModel.unpack b) : x < y ↔ a < b := by
  have hcompare := hx.compare_eq hy
  change decide ((x.toModel.unpack.compare y.toModel.unpack == some .lt) = true) = true ↔ _
  rw [hcompare]
  simp [compare_lt_iff_lt]

theorem beq_iff_of_represents (hx : Represents x.toModel.unpack a)
    (hy : Represents y.toModel.unpack b) : (x == y) = true ↔ a = b := by
  have hcompare := hx.compare_eq hy
  change (x.toModel.unpack.compare y.toModel.unpack == some .eq) = true ↔ _
  rw [hcompare]
  simp

end Order

theorem order?_ofInteger (a b : Int64) :
    order? (ofInteger a) (ofInteger b) = some (compare (nearest a.toInt) (nearest b.toInt)) := by
  have ha := represents_ofInteger a
  have hb := represents_ofInteger b
  rw [order?]
  rcases lt_trichotomy (nearest a.toInt) (nearest b.toInt) with h | h | h
  · rw [if_pos ((lt_iff_of_represents ha hb).2 h), compare_lt_iff_lt.2 h]
  · have hless : ¬ ofInteger a < ofInteger b := by
      rw [lt_iff_of_represents ha hb]
      omega
    rw [if_neg hless, if_pos ((beq_iff_of_represents ha hb).2 h), compare_eq_iff_eq.2 h]
  · have hless : ¬ ofInteger a < ofInteger b := by
      rw [lt_iff_of_represents ha hb]
      omega
    have hequal : ¬ (ofInteger a == ofInteger b) = true := by
      rw [beq_iff_of_represents ha hb]
      omega
    rw [if_neg hless, if_neg hequal, if_pos ((lt_iff_of_represents hb ha).2 h),
      compare_gt_iff_gt.2 h]

end Conversion

end FormulaEngine.Decimal
