import FormulaEngine.Integer
import Mathlib.Data.Nat.Digits.Defs

/-!
# Numerals

The decimal digits that an integer is written with, and reading them back. The least integer is
included: its digits are read together with the sign.
-/
namespace FormulaEngine.Integer

def numeral (n : Nat) : List Char := Nat.toDigits 10 n

theorem ofDigits_numeral (n : Nat) : ofDigits (numeral n) = n := Nat.ofDigitChars_ten_toDigits

theorem numeral_ne_nil (n : Nat) : numeral n ≠ [] := Nat.toDigits_ne_nil

theorem isDigit_of_mem_numeral {n : Nat} {c : Char} (h : c ∈ numeral n) : c.isDigit = true :=
  Nat.isDigit_of_mem_toDigits (by decide) (by decide) h

theorem exists_numeral_eq_cons (n : Nat) : ∃ c cs, numeral n = c :: cs ∧ c.isDigit = true := by
  cases h : numeral n with
  | nil => exact absurd h (numeral_ne_nil n)
  | cons c cs => exact ⟨c, cs, rfl, isDigit_of_mem_numeral (h ▸ List.mem_cons_self)⟩

theorem eq_zero_of_digitChar : ∀ d < 10, Nat.digitChar d = '0' → d = 0 := by decide

theorem eq_zero_of_head?_numeral {n : Nat} (h : (numeral n).head? = some '0') : n = 0 := by
  induction n using Nat.strong_induction_on with
  | _ n ih =>
    by_cases hsmall : n < 10
    · rw [numeral, Nat.toDigits_of_lt_base hsmall] at h
      exact eq_zero_of_digitChar n hsmall (Option.some.inj h)
    · have hlarge : 10 ≤ n := by omega
      have hdigits : numeral n = numeral (n / 10) ++ [(n % 10).digitChar] :=
        Nat.toDigits_of_base_le (by decide) hlarge
      rw [hdigits, List.head?_append, Option.or_of_isSome
        (List.isSome_head?.2 (numeral_ne_nil (n / 10)))] at h
      have hquotient : n / 10 = 0 := ih (n / 10) (by omega) h
      omega

theorem ofInt?_toInt (n : Int64) : ofInt? n.toInt = some n := by
  have hleast := Int64.le_toInt n
  have hgreatest := Int64.toInt_lt n
  exact ofInt?_eq_some.2 ⟨hleast, by simp only [greatest]; omega, (Int64.ofInt_toInt n).symm⟩

/-- An integer is written with a minus, if it is negative, and the digits of its magnitude. -/
theorem toList_text (n : Int64) :
    (text n).toList = (if n.toInt < 0 then ['-'] else []) ++ numeral n.toInt.natAbs := by
  have htext : text n = n.toInt.repr := rfl
  rw [htext, Int.repr_eq_if]
  by_cases h : 0 ≤ n.toInt
  · have hnat : n.toInt.toNat = n.toInt.natAbs := by omega
    rw [if_pos h, if_neg (by omega), hnat, Nat.repr_eq_ofList_toDigits]
    simp [numeral]
  · have hnat : (-n.toInt).toNat = n.toInt.natAbs := by omega
    rw [if_neg h, if_pos (by omega), hnat, Nat.repr_eq_ofList_toDigits]
    simp [numeral]

theorem splitSign_of_isDigit {c : Char} (h : c.isDigit = true) (cs : List Char) :
    splitSign (c :: cs) = (false, c :: cs) := by
  unfold splitSign
  split
  · exact absurd h (by simp_all)
  · exact absurd h (by simp_all)
  · rfl

theorem splitSign_numeral (n : Nat) : splitSign (numeral n) = (false, numeral n) := by
  obtain ⟨c, cs, hnumeral, hdigit⟩ := exists_numeral_eq_cons n
  rw [hnumeral, splitSign_of_isDigit hdigit]

theorem splitSign_text (n : Int64) :
    splitSign (text n).toList = (decide (n.toInt < 0), numeral n.toInt.natAbs) := by
  rw [toList_text]
  by_cases h : n.toInt < 0
  · rw [if_pos h, decide_eq_true h]
    rfl
  · rw [if_neg h, decide_eq_false h, List.nil_append, splitSign_numeral]

/-- What is written for an integer is read as that integer. -/
theorem read?_text (n : Int64) : read? (text n).toList = some n := by
  have hall : (numeral n.toInt.natAbs).all Char.isDigit = true :=
    List.all_eq_true.2 fun _ hc => isDigit_of_mem_numeral hc
  have hempty : (numeral n.toInt.natAbs).isEmpty = false :=
    List.isEmpty_eq_false_iff.2 (numeral_ne_nil _)
  have hvalue : (if decide (n.toInt < 0) = true then -(n.toInt.natAbs : Int)
      else (n.toInt.natAbs : Int)) = n.toInt := by
    by_cases h : n.toInt < 0
    · rw [decide_eq_true h, if_pos rfl]
      omega
    · rw [decide_eq_false h, if_neg Bool.false_ne_true]
      omega
  simp only [read?, splitSign_text, hempty, hall, Bool.not_true, Bool.or_self,
    Bool.false_eq_true, if_false, ofDigits_numeral]
  rw [hvalue, ofInt?_toInt]

end FormulaEngine.Integer
