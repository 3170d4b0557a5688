import FormulaEngine.Decimal.Text
import Mathlib.Algebra.Order.Ring.Int
import Mathlib.Data.Nat.Log

/-!
# The nearest decimal

The integers that are decimals lie 1 apart up to `2^53`, and twice as far apart from every further
power of two on. What an integer becomes as a decimal is the nearest one of them. That keeps the
order of integers, but not the difference of every two of them.
-/
namespace FormulaEngine.Decimal

section RoundDiv

variable {num num' den : Nat}

theorem roundDiv_of_lt (h : 2 * (num % den) < den) : roundDiv num den = num / den := if_pos h

theorem roundDiv_of_eq (h : 2 * (num % den) = den) :
    roundDiv num den = num / den + num / den % 2 := by
  unfold roundDiv
  dsimp only
  rw [if_neg (by omega), if_neg (by omega)]

theorem roundDiv_of_gt (h : den < 2 * (num % den)) : roundDiv num den = num / den + 1 := by
  unfold roundDiv
  dsimp only
  rw [if_neg (by omega), if_pos h]

theorem div_le_roundDiv (num den : Nat) : num / den ≤ roundDiv num den := by
  rcases lt_trichotomy (2 * (num % den)) den with h | h | h
  · rw [roundDiv_of_lt h]
  · rw [roundDiv_of_eq h]
    exact Nat.le_add_right _ _
  · rw [roundDiv_of_gt h]
    exact Nat.le_succ _

theorem roundDiv_le (num den : Nat) : roundDiv num den ≤ num / den + 1 := by
  rcases lt_trichotomy (2 * (num % den)) den with h | h | h
  · rw [roundDiv_of_lt h]
    exact Nat.le_succ _
  · rw [roundDiv_of_eq h]
    omega
  · rw [roundDiv_of_gt h]

theorem roundDiv_mul_mul (num den : Nat) {c : Nat} (pos : 0 < c) :
    roundDiv (num * c) (den * c) = roundDiv num den := by
  simp only [roundDiv, Nat.mul_div_mul_right _ _ pos, Nat.mul_mod_mul_right, ← Nat.mul_assoc,
    Nat.mul_lt_mul_right pos]

theorem roundDiv_mul_self (q : Nat) (pos : 0 < den) : roundDiv (q * den) den = q := by
  rw [roundDiv_of_lt (by rwa [Nat.mul_mod_left]), Nat.mul_div_cancel q pos]

theorem roundDiv_mono (den : Nat) (h : num ≤ num') : roundDiv num den ≤ roundDiv num' den := by
  rcases Nat.lt_or_eq_of_le (Nat.div_le_div_right (c := den) h) with hless | hsame
  · calc
      roundDiv num den ≤ num / den + 1 := roundDiv_le num den
      _ ≤ num' / den := hless
      _ ≤ roundDiv num' den := div_le_roundDiv num' den
  · have hremainder : num % den ≤ num' % den := by
      have hnum := Nat.div_add_mod num den
      have hnum' := Nat.div_add_mod num' den
      rw [← hsame] at hnum'
      omega
    rcases lt_trichotomy (2 * (num % den)) den with hr | hr | hr
    · rw [roundDiv_of_lt hr, hsame]
      exact div_le_roundDiv num' den
    · rw [roundDiv_of_eq hr, hsame]
      rcases Nat.lt_or_eq_of_le (show den ≤ 2 * (num' % den) by omega) with hr' | hr'
      · rw [roundDiv_of_gt hr']
        omega
      · rw [roundDiv_of_eq hr'.symm]
    · rw [roundDiv_of_gt hr, roundDiv_of_gt (by omega), hsame]

theorem roundDiv_bounds {k : Nat} (digits : num.log2 = k + 52) :
    2 ^ 52 ≤ roundDiv num (2 ^ k) ∧ roundDiv num (2 ^ k) ≤ 2 ^ 53 := by
  have hpos : 0 < 2 ^ k := Nat.two_pow_pos k
  have hne : num ≠ 0 := by
    rintro rfl
    simp at digits
  have hlow : 2 ^ 52 * 2 ^ k ≤ num := by
    rw [← Nat.pow_add, Nat.add_comm, ← digits]
    exact Nat.log2_self_le hne
  have hhigh : num ≤ 2 ^ 53 * 2 ^ k := by
    rw [← Nat.pow_add]
    have hlt : num < 2 ^ (num.log2 + 1) := Nat.lt_log2_self
    rw [show num.log2 + 1 = 53 + k by omega] at hlt
    exact hlt.le
  constructor
  · calc
      2 ^ 52 = roundDiv (2 ^ 52 * 2 ^ k) (2 ^ k) := (roundDiv_mul_self _ hpos).symm
      _ ≤ roundDiv num (2 ^ k) := roundDiv_mono _ hlow
  · calc
      roundDiv num (2 ^ k) ≤ roundDiv (2 ^ 53 * 2 ^ k) (2 ^ k) := roundDiv_mono _ hhigh
      _ = 2 ^ 53 := roundDiv_mul_self _ hpos

end RoundDiv

/-- How far the decimals of the magnitude of `n` that are integers lie apart. -/
def unit (n : Nat) : Nat := 2 ^ (n.log2 - 52)

/-- The multiple of the unit that is nearest; of two equally near ones, the even multiple. -/
def nearestNat (n : Nat) : Nat := unit n * roundDiv n (unit n)

/-- The integer that `n` becomes as a decimal. -/
def nearest (n : Int) : Int := n.sign * nearestNat n.natAbs

section Natural

variable {n m : Nat}

theorem log2_mul_two_pow (ne : n ≠ 0) (s : Nat) : (n * 2 ^ s).log2 = n.log2 + s := by
  have hpos : 0 < 2 ^ s := Nat.two_pow_pos s
  rw [Nat.log2_eq_iff (Nat.mul_ne_zero ne hpos.ne'), Nat.add_right_comm, Nat.pow_add, Nat.pow_add]
  exact ⟨Nat.mul_le_mul_right _ (Nat.log2_self_le ne),
    Nat.mul_lt_mul_of_pos_right Nat.lt_log2_self hpos⟩

theorem nearestNat_eq_self (small : n ≤ 2 ^ 53) : nearestNat n = n := by
  rcases Nat.lt_or_eq_of_le small with hlt | rfl
  · have hunit : unit n = 1 := by
      rcases Nat.eq_zero_or_pos n with rfl | hpos
      · rfl
      · have hlog := (Nat.log2_lt hpos.ne').2 hlt
        rw [unit, show n.log2 - 52 = 0 by omega, Nat.pow_zero]
    have hround : roundDiv (n * 1) 1 = n := roundDiv_mul_self n Nat.one_pos
    rw [Nat.mul_one] at hround
    rw [nearestNat, hunit, hround, Nat.one_mul]
  · decide

/-- Whatever binary digits the quotient is written with, its first 53 are those of the decimal. -/
theorem roundDiv_mul_pow {s k : Nat} (digits : n.log2 + s = k + 52) :
    roundDiv (n * 2 ^ s) (2 ^ k) * 2 ^ k = nearestNat n * 2 ^ s := by
  by_cases hlarge : 52 ≤ n.log2
  · have hk : 2 ^ k = unit n * 2 ^ s := by
      rw [unit, ← Nat.pow_add]
      congr 1
      omega
    rw [hk, roundDiv_mul_mul _ _ (Nat.two_pow_pos s), nearestNat, ← Nat.mul_assoc,
      Nat.mul_comm (roundDiv _ _)]
  · have hs : 2 ^ s = 2 ^ (52 - n.log2) * 2 ^ k := by
      rw [← Nat.pow_add]
      congr 1
      omega
    have hsmall : n ≤ 2 ^ 53 := by
      rcases Nat.eq_zero_or_pos n with rfl | hpos
      · exact Nat.zero_le _
      · exact ((Nat.log2_lt hpos.ne').1 (by omega)).le
    rw [nearestNat_eq_self hsmall, hs, ← Nat.mul_assoc,
      roundDiv_mul_self _ (Nat.two_pow_pos k)]

theorem nearestNat_bounds (ne : n ≠ 0) :
    2 ^ n.log2 ≤ nearestNat n ∧ nearestNat n ≤ 2 ^ (n.log2 + 1) := by
  have hlog : (n * 2 ^ 52).log2 = n.log2 + 52 := log2_mul_two_pow ne 52
  obtain ⟨hlow, hhigh⟩ := roundDiv_bounds hlog
  have hvalue := roundDiv_mul_pow (n := n) rfl
  constructor
  · refine Nat.le_of_mul_le_mul_right ?_ (Nat.two_pow_pos 52)
    rw [← hvalue, Nat.mul_comm]
    exact Nat.mul_le_mul_right _ hlow
  · refine Nat.le_of_mul_le_mul_right ?_ (Nat.two_pow_pos 52)
    calc
      nearestNat n * 2 ^ 52 ≤ 2 ^ 53 * 2 ^ n.log2 := by
        rw [← hvalue]
        exact Nat.mul_le_mul_right _ hhigh
      _ = 2 ^ (n.log2 + 1) * 2 ^ 52 := by
        rw [← Nat.pow_add, ← Nat.pow_add]
        congr 1
        omega

theorem nearestNat_mono (h : m ≤ n) : nearestNat m ≤ nearestNat n := by
  by_cases hm : m = 0
  · rw [hm, nearestNat_eq_self (Nat.zero_le _)]
    exact Nat.zero_le _
  have hn : n ≠ 0 := by omega
  have hlog : m.log2 ≤ n.log2 := (Nat.le_log2 hn).2 ((Nat.log2_self_le hm).trans h)
  rcases Nat.lt_or_eq_of_le hlog with hless | hsame
  · calc
      nearestNat m ≤ 2 ^ (m.log2 + 1) := (nearestNat_bounds hm).2
      _ ≤ 2 ^ n.log2 := Nat.pow_le_pow_right (by decide) hless
      _ ≤ nearestNat n := (nearestNat_bounds hn).1
  · rw [nearestNat, nearestNat, unit, unit, hsame]
    exact Nat.mul_le_mul_left _ (roundDiv_mono _ h)

end Natural

section Signed

variable {a b : Int}

theorem nearest_natCast (n : Nat) : nearest n = nearestNat n := by
  rcases Nat.eq_zero_or_pos n with rfl | hpos
  · rfl
  · simp [nearest, Int.sign_eq_one_of_pos, hpos]

theorem nearest_neg (a : Int) : nearest (-a) = -nearest a := by
  simp [nearest]

theorem nearest_nonneg (nonneg : 0 ≤ a) : 0 ≤ nearest a := by
  obtain ⟨n, rfl⟩ := Int.eq_ofNat_of_zero_le nonneg
  rw [nearest_natCast]
  exact Int.natCast_nonneg _

/-- No two integers change their order when they become decimals. -/
theorem nearest_mono (h : a ≤ b) : nearest a ≤ nearest b := by
  have hnonneg {a b : Int} (ha : 0 ≤ a) (h : a ≤ b) : nearest a ≤ nearest b := by
    obtain ⟨m, rfl⟩ := Int.eq_ofNat_of_zero_le ha
    obtain ⟨n, rfl⟩ := Int.eq_ofNat_of_zero_le (ha.trans h)
    rw [nearest_natCast, nearest_natCast]
    exact Int.ofNat_le.2 (nearestNat_mono (Int.ofNat_le.1 h))
  rcases le_total 0 a with ha | ha
  · exact hnonneg ha h
  · rcases le_total 0 b with hb | hb
    · have hopposite : 0 ≤ nearest (-a) := nearest_nonneg (by omega)
      rw [nearest_neg] at hopposite
      exact le_trans (by omega) (nearest_nonneg hb)
    · have hopposite : nearest (-b) ≤ nearest (-a) := hnonneg (by omega) (by omega)
      rw [nearest_neg, nearest_neg] at hopposite
      omega

theorem nearest_eq_self (small : a.natAbs ≤ 2 ^ 53) : nearest a = a := by
  rw [nearest, nearestNat_eq_self small, Int.sign_mul_natAbs]

theorem lt_of_nearest_lt (h : nearest a < nearest b) : a < b := by
  by_contra hle
  exact absurd (nearest_mono (not_lt.1 hle)) (not_le.2 h)

end Signed

-- the first integer that is no decimal, between two that are
example : nearest 9007199254740993 = 9007199254740992 ∧
    nearest 9007199254740994 = 9007199254740994 := by decide

end FormulaEngine.Decimal
