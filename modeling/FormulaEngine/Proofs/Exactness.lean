import FormulaEngine.Formula.Arithmetic
import FormulaEngine.Proofs.Numerals
import Mathlib.Algebra.Order.Ring.Int
import Mathlib.Tactic.Ring

/-!
# Exactness

Integers are computed with exactly: a sum, a difference, a product, a power, an opposite or an
absolute value that is an integer is the mathematical one, and it is an integer whenever that fits
in 64 bits. A power is found by repeated squaring, where no product on the way can leave the range
unless the power itself does.
-/
namespace FormulaEngine

namespace Integer

theorem ofInt?_eq_none {n : Int} : ofInt? n = none ↔ n < least ∨ greatest < n := by
  unfold ofInt?
  split <;> simp <;> omega

theorem ofInt?_mul_eq_none {n k : Int} (beyond : ofInt? n = none) (pos : 0 < k) :
    ofInt? (n * k) = none := by
  rw [ofInt?_eq_none] at *
  simp only [least, greatest] at *
  rcases beyond with h | h
  · left
    nlinarith
  · right
    nlinarith

/-- The range has no square at its end, so that a square beyond it has a magnitude beyond it. -/
theorem lt_square_of_ofInt?_eq_none {b : Int} (beyond : ofInt? (b * b) = none) :
    2 ^ 63 < b * b := by
  rw [ofInt?_eq_none] at beyond
  simp only [least, greatest] at beyond
  have hroot : b ≤ -3037000500 ∨ 3037000500 ≤ b := by
    by_contra hsmall
    have hlow : -3037000499 ≤ b := by omega
    have hhigh : b ≤ 3037000499 := by omega
    rcases beyond with h | h <;> nlinarith
  rcases hroot with h | h <;> nlinarith

theorem ofInt?_mul_square_eq_none {b n : Int} (beyond : ofInt? (b * b) = none) (ne : n ≠ 0)
    {k : Nat} (pos : 0 < k) : ofInt? (n * (b * b) ^ k) = none := by
  have hsquare := lt_square_of_ofInt?_eq_none beyond
  have hpower : b * b ≤ (b * b) ^ k := le_self_pow₀ (by omega) (by omega)
  rw [ofInt?_eq_none]
  simp only [least, greatest]
  rcases lt_or_gt_of_ne ne with h | h
  · left
    nlinarith
  · right
    nlinarith

/-- What the total is after the lowest binary digit of the exponent, were there no limits. -/
def totalAfter (e : Nat) (t b : Int) : Int := if e % 2 = 1 then t * b else t

section Total

variable {e : Nat} {t b : Int} {total base : Int64}

/-- One digit of the exponent is used up by the total, the others by the square. -/
theorem totalAfter_mul_pow (e : Nat) (t b : Int) :
    totalAfter e t b * (b * b) ^ (e / 2) = t * b ^ e := by
  conv => rhs; rw [← Nat.mod_add_div e 2, pow_add, pow_mul, pow_two]
  unfold totalAfter
  split
  · rename_i h
    rw [h, pow_one, mul_assoc]
  · rename_i h
    rw [show e % 2 = 0 by omega, pow_zero, one_mul]

theorem ofInt?_totalAfter (e : Nat) (total base : Int64) :
    (if e % 2 = 1 then multiply? total base else some total) =
      ofInt? (totalAfter e total.toInt base.toInt) := by
  rw [totalAfter, apply_ite ofInt?, ofInt?_toInt]
  rfl

theorem totalAfter_ne_zero (ht : t ≠ 0) (hb : b ≠ 0) : totalAfter e t b ≠ 0 := by
  unfold totalAfter
  split
  · exact mul_ne_zero ht hb
  · exact ht

theorem base_ne_zero_of_total (beyond : ofInt? (totalAfter e total.toInt base.toInt) = none) :
    base.toInt ≠ 0 := by
  intro hbase
  rw [totalAfter, hbase, mul_zero, apply_ite ofInt?, ofInt?_toInt] at beyond
  split at beyond <;> cases beyond

theorem base_ne_zero_of_square (beyond : ofInt? (base.toInt * base.toInt) = none) :
    base.toInt ≠ 0 := by
  intro hbase
  rw [hbase] at beyond
  cases beyond

end Total

/-- Repeated squaring fails only where the power does not fit. A total of zero would hide that, but
it comes about with a base of zero alone. -/
theorem powerFrom?_eq {total base : Int64} {e : Nat} (ne : total.toInt ≠ 0 ∨ base.toInt = 0) :
    powerFrom? total base e = ofInt? (total.toInt * base.toInt ^ e) := by
  induction e using Nat.strongRecOn generalizing total base with
  | _ e ih =>
    have htotalne (hbase : base.toInt ≠ 0) : totalAfter e total.toInt base.toInt ≠ 0 :=
      totalAfter_ne_zero (ne.resolve_right hbase) hbase
    rw [powerFrom?, ofInt?_totalAfter, ← totalAfter_mul_pow]
    by_cases hzero : e = 0
    · subst hzero
      simp [totalAfter, ofInt?_toInt]
    rw [if_neg hzero]
    cases hfits : ofInt? (totalAfter e total.toInt base.toInt) with
    | none =>
      have hpos : 0 < (base.toInt * base.toInt) ^ (e / 2) :=
        pow_pos (mul_self_pos.2 (base_ne_zero_of_total hfits)) _
      exact (ofInt?_mul_eq_none hfits hpos).symm
    | some total' =>
      have htotal : total'.toInt = totalAfter e total.toInt base.toInt := toInt_of_ofInt? hfits
      rw [Option.bind_some]
      by_cases hone : e = 1
      · subst hone
        rw [if_pos rfl, pow_zero, mul_one, hfits]
      rw [if_neg hone]
      cases hsquare : multiply? base base with
      | none =>
        have hne := htotalne (base_ne_zero_of_square hsquare)
        exact (ofInt?_mul_square_eq_none hsquare hne (by omega)).symm
      | some square =>
        have hsquared : square.toInt = base.toInt * base.toInt := toInt_of_ofInt? hsquare
        have hne : total'.toInt ≠ 0 ∨ square.toInt = 0 := by
          rw [htotal, hsquared, mul_self_eq_zero]
          exact (eq_or_ne base.toInt 0).symm.imp_left htotalne
        rw [Option.bind_some, ih (e / 2) (by omega) hne, htotal, hsquared]

theorem power?_eq (a b : Int64) :
    power? a b = if 0 ≤ b.toInt ∧ b.toInt ≤ greatestExponent then
      ofInt? (a.toInt ^ b.toInt.toNat) else none := by
  rw [power?]
  by_cases hadmitted : 0 ≤ b.toInt ∧ b.toInt ≤ greatestExponent
  · rw [if_pos hadmitted, if_neg (by omega), powerFrom?_eq (.inl (by decide))]
    exact congrArg ofInt? (one_mul _)
  · rw [if_neg hadmitted, if_pos (by omega)]

-- the least integer is a power of -2, and its opposite is out of range
example : power? (-2) 63 = some Int64.minValue ∧ power? 2 63 = none := by
  constructor <;> rw [power?_eq] <;> decide

end Integer

namespace Formula

/-- The outcome is the exact result, where there is one that fits, and a decimal otherwise. -/
structure IsExactOrDecimal (expected : Option Int) (r : Outcome Value) : Prop where
  isInteger_iff : (∃ n, r = .ok (.integer n)) ↔
    ∃ m, expected = some m ∧ Int64.minValue.toInt ≤ m ∧ m ≤ Int64.maxValue.toInt
  exact_of_isInteger : ∀ n, r = .ok (.integer n) → expected = some n.toInt
  isDecimal : (∀ n, r ≠ .ok (.integer n)) → ∃ x, r = .ok (.decimal x)

theorem IsExactOrDecimal.isDecimal_of_beyond {m : Int} {r : Outcome Value}
    (h : IsExactOrDecimal (some m) r)
    (beyond : m < Int64.minValue.toInt ∨ Int64.maxValue.toInt < m) :
    ∃ x, r = .ok (.decimal x) := by
  refine h.isDecimal fun n hn => ?_
  obtain ⟨_, ⟨⟩, hlow, hhigh⟩ := h.isInteger_iff.1 ⟨n, hn⟩
  omega

/-- The result of an operator on integers of any size, if it has one that is an integer. Powers are
left out where the exponent does not fit in 32 bits. -/
def BinaryOperator.result? : BinaryOperator → Int → Int → Option Int
  | add, x, y => some (x + y)
  | subtract, x, y => some (x - y)
  | multiply, x, y => some (x * y)
  | power, x, y => if 0 ≤ y ∧ y ≤ 4294967295 then some (x ^ y.toNat) else none
  | _, _, _ => none

def BinaryOperator.integral : List BinaryOperator := [add, subtract, multiply, power]

section

variable {a b : Value} {x y : Int64}

theorem isExactOrDecimal_ofInt? (expected : Option Int) (d : Float) :
    IsExactOrDecimal expected
      ((expected.bind Integer.ofInt?).elim (.ok (.decimal d)) fun n => .ok (.integer n)) := by
  have hleast : Int64.minValue.toInt = Integer.least := rfl
  have hgreatest : Int64.maxValue.toInt = Integer.greatest := rfl
  cases hfits : expected.bind Integer.ofInt? with
  | some n =>
    obtain ⟨m, hexact, hm⟩ := Option.bind_eq_some_iff.1 hfits
    have hvalue : n.toInt = m := Integer.toInt_of_ofInt? hm
    obtain ⟨hlow, hhigh, _⟩ := Integer.ofInt?_eq_some.1 hm
    refine ⟨⟨fun _ => ⟨m, hexact, hlow, hhigh⟩, fun _ => ⟨n, rfl⟩⟩, ?_, fun h => absurd rfl (h n)⟩
    rintro _ ⟨⟩
    rw [hexact, hvalue]
  | none =>
    refine ⟨⟨nofun, ?_⟩, nofun, fun _ => ⟨d, rfl⟩⟩
    rintro ⟨m, rfl, hlow, hhigh⟩
    have hm := Integer.ofInt?_eq_none.1 hfits
    omega

theorem decimal?_of_plainInteger? (integer : a.plainInteger? = some x) :
    a.decimal? = .ok (Decimal.ofInteger x) := by
  unfold Value.plainInteger? at integer
  split at integer
  · rename_i n hlatest
    cases integer
    rw [Value.decimal?, hlatest]
    rfl
  · cases integer

theorem lenient_integral (strict : Bool) (checked : Int64 → Int64 → Option Int64)
    (decimal : Float → Float → Float) (first : a.plainInteger? = some x)
    (second : b.plainInteger? = some y) :
    ∃ d, lenient strict (integral checked decimal a b) =
      (checked x y).elim (.ok (.decimal d)) fun n => .ok (.integer n) := by
  refine ⟨decimal (Decimal.ofInteger x) (Decimal.ofInteger y), ?_⟩
  rw [integral, first, second, decimal?_of_plainInteger? first, decimal?_of_plainInteger? second]
  cases h : checked x y <;> simp [h] <;> rfl

theorem lenient_ne_integer {strict : Bool} {r : Outcome Value} (h : ∀ n, r ≠ .ok (.integer n))
    (n : Int64) : lenient strict r ≠ .ok (.integer n) := by
  unfold lenient
  split
  · split <;> nofun
  · exact h n

theorem integral_ne_integer (checked : Int64 → Int64 → Option Int64)
    (decimal : Float → Float → Float) (missing : a.plainInteger? = none ∨ b.plainInteger? = none)
    (n : Int64) : integral checked decimal a b ≠ .ok (.integer n) := by
  have hnone : (a.plainInteger?.bind fun x => b.plainInteger?.bind fun y => checked x y) = none := by
    rcases missing with h | h <;> simp [h]
  rw [integral, hnone]
  cases a.decimal? with
  | error e => nofun
  | ok x => cases b.decimal? <;> nofun

theorem binary_ne_integer (strict : Bool) {op : BinaryOperator} (keeps : op ∈ BinaryOperator.integral)
    (missing : a.plainInteger? = none ∨ b.plainInteger? = none) (n : Int64) :
    binary strict op a b ≠ .ok (.integer n) := by
  cases op with
  | power => exact lenient_ne_integer (integral_ne_integer _ _ missing) n
  | multiply => exact lenient_ne_integer (integral_ne_integer _ _ missing) n
  | add => exact lenient_ne_integer (integral_ne_integer _ _ missing) n
  | subtract => exact lenient_ne_integer (integral_ne_integer _ _ missing) n
  | _ => exact absurd keeps (by decide)

theorem isExactOrDecimal_binary (strict : Bool) {op : BinaryOperator}
    (keeps : op ∈ BinaryOperator.integral) (first : a.plainInteger? = some x)
    (second : b.plainInteger? = some y) :
    IsExactOrDecimal (op.result? x.toInt y.toInt) (binary strict op a b) := by
  have hchecked (checked : Int64 → Int64 → Option Int64) (decimal : Float → Float → Float)
      (h : checked x y = (op.result? x.toInt y.toInt).bind Integer.ofInt?) :
      IsExactOrDecimal (op.result? x.toInt y.toInt)
        (lenient strict (integral checked decimal a b)) := by
    obtain ⟨d, hd⟩ := lenient_integral strict checked decimal first second
    rw [hd, h]
    exact isExactOrDecimal_ofInt? _ d
  cases op with
  | power =>
    refine hchecked Integer.power? _ ?_
    rw [Integer.power?_eq, BinaryOperator.result?, Integer.greatestExponent]
    split <;> rfl
  | multiply => exact hchecked Integer.multiply? _ rfl
  | add => exact hchecked Integer.add? _ rfl
  | subtract => exact hchecked Integer.subtract? _ rfl
  | _ => exact absurd keeps (by decide)

theorem isExactOrDecimal_negate (strict : Bool) (first : a.plainInteger? = some x) :
    IsExactOrDecimal (some (-x.toInt)) (unary strict .negate a) := by
  have hnegate : unary strict .negate a =
      (Integer.negate? x).elim (.ok (.decimal (-Decimal.ofInteger x))) fun n => .ok (.integer n) := by
    rw [unary, negate, first, Option.bind_some, decimal?_of_plainInteger? first]
    cases Integer.negate? x <;> rfl
  rw [hnegate]
  exact isExactOrDecimal_ofInt? (some (-x.toInt)) _

theorem isExactOrDecimal_absolute (first : a.plainInteger? = some x) :
    IsExactOrDecimal (some x.toInt.natAbs) (function1 .abs a) := by
  have habsolute : function1 .abs a =
      (Integer.absolute? x).elim (.ok (.decimal (Decimal.ofInteger x).abs))
        fun n => .ok (.integer n) := by
    rw [function1, absolute, first, Option.bind_some, decimal?_of_plainInteger? first]
    cases Integer.absolute? x <;> rfl
  rw [habsolute]
  exact isExactOrDecimal_ofInt? (some (x.toInt.natAbs : Int)) _

end

/-- Arithmetic with integers gives the exact integer wherever that fits, and a decimal everywhere
else; arithmetic with anything else gives no integer. -/
theorem integers_exact_or_decimal (strict : Bool) (a b : Value) :
    (∀ x y, a.plainInteger? = some x → b.plainInteger? = some y → ∀ op ∈ BinaryOperator.integral,
        IsExactOrDecimal (op.result? x.toInt y.toInt) (binary strict op a b)) ∧
      (∀ x, a.plainInteger? = some x →
        IsExactOrDecimal (some (-x.toInt)) (unary strict .negate a) ∧
          IsExactOrDecimal (some x.toInt.natAbs) (function1 .abs a)) ∧
      (a.plainInteger? = none ∨ b.plainInteger? = none → ∀ op ∈ BinaryOperator.integral, ∀ n,
        binary strict op a b ≠ .ok (.integer n)) := by
  refine ⟨fun x y first second op keeps => ?_, fun x first => ⟨?_, ?_⟩,
    fun missing op keeps n => ?_⟩
  · exact isExactOrDecimal_binary strict keeps first second
  · exact isExactOrDecimal_negate strict first
  · exact isExactOrDecimal_absolute first
  · exact binary_ne_integer strict keeps missing n

end Formula

namespace Sample

/-- The least integer, seen through a label, a list and quotation marks. -/
def labelledLeast : Value :=
  .named (.list [.text "a", .quoted (.integer Int64.minValue) "'" "'"]) "least"

def quotedMinusOne : Value := .quoted (.integer (-1)) "\"" "\""

end Sample

open Formula Sample in
theorem Formula.integers_exact_or_decimal_least :
    labelledLeast.plainInteger? = some Int64.minValue ∧
      quotedMinusOne.plainInteger? = some (-1) ∧
      (∃ n, binary false .subtract labelledLeast quotedMinusOne = .ok (.integer n)) ∧
      (∃ x, binary false .multiply labelledLeast quotedMinusOne = .ok (.decimal x)) ∧
      (∃ x, function1 .abs labelledLeast = .ok (.decimal x)) ∧
      (Value.decimal 1.0).plainInteger? = none ∧
      ∀ n, binary false .add (.decimal 1.0) labelledLeast ≠ .ok (.integer n) := by
  obtain ⟨hbinary, hunary, _⟩ := integers_exact_or_decimal false labelledLeast quotedMinusOne
  obtain ⟨_, _, hmissing⟩ := integers_exact_or_decimal false (.decimal 1.0) labelledLeast
  have hdifference := hbinary Int64.minValue (-1) rfl rfl .subtract (by decide)
  have hproduct := hbinary Int64.minValue (-1) rfl rfl .multiply (by decide)
  have habsolute := (hunary Int64.minValue rfl).2
  refine ⟨rfl, rfl, ?_, ?_, ?_, rfl, hmissing (.inl rfl) .add (by decide)⟩
  · exact hdifference.isInteger_iff.2 ⟨-9223372036854775807, by decide, by decide, by decide⟩
  · exact hproduct.isDecimal_of_beyond (.inr (by decide))
  · exact habsolute.isDecimal_of_beyond (.inr (by decide))

end FormulaEngine
