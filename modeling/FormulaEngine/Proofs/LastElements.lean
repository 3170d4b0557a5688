import FormulaEngine.Proofs.Wrappers
import Mathlib

/-!
# Last elements

A list beside a scalar stands for its last element. On the left-hand side of an equality that is so
whatever the element is. On the right-hand side the list is read as what its last element is read
as, although an element that is null or not a number would equal no scalar, and although two rolls
would be compared by their dice.
-/
namespace FormulaEngine

namespace Decimal

open Float.Model Float.Model.UnpackedFloat

/-- There is only one float that is not a number. -/
theorem eq_nan_of_isNaN {x : Float} (h : x.isNaN = true) : x = 0.0 / 0.0 := by
  have hbits := (isNaN_unpack_iff_of_valid x.toModel.valid).1 h
  obtain ⟨⟨bits, valid⟩⟩ := x
  obtain rfl : bits = UInt64.ofBitVec (packedNaN .binary64) := UInt64.toBitVec_inj.1 hbits
  rfl

theorem isClose_of_difference {x y : Float}
    (h : UnpackedFloat.sub .binary64 x.toModel.unpack y.toModel.unpack = .notANumber) :
    isClose x y = false := by
  have hdifference : (x - y).toModel = Float.Model.pack .notANumber :=
    congrArg Float.Model.pack h
  have habs : (x - y).abs = 0.0 / 0.0 := by
    rw [Float.abs, hdifference]
    rfl
  rw [isClose, habs]
  decide

theorem unpack_nan : (0.0 / 0.0 : Float).toModel.unpack = .notANumber := rfl

theorem isClose_nan_right (x : Float) : isClose x (0.0 / 0.0) = false := by
  apply isClose_of_difference
  rw [unpack_nan]
  cases x.toModel.unpack <;> rfl

theorem isClose_nan_left (y : Float) : isClose (0.0 / 0.0) y = false := by
  apply isClose_of_difference
  rw [unpack_nan]
  rfl

end Decimal

namespace Scalar

def isNear (s t : Scalar) : Bool :=
  match s.decimal?, t.decimal? with
  | .ok x, .ok y => Decimal.isClose x y
  | _, _ => false

/-- The second scalar, read in the way of the first one, is the same. -/
def reads (s t : Scalar) : Bool :=
  match s with
  | text a => a == t.display
  | integer a =>
    match t.integer? with
    | .ok b => a == b
    | .error _ => false
  | decimal x => (decimal x).isNear t
  | boolean a => a == t.truth
  | null => false
  | nan => false
  | roll count sides => (roll count sides).isNear t

def fitsNull : Scalar → Bool
  | text a => a == ""
  | integer a => a == 0
  | decimal x => Decimal.isClose x 0.0
  | boolean a => !a
  | roll count sides => (roll count sides).isNear null
  | null => false
  | nan => false

def fitsNaN : Scalar → Bool
  | text t => t == "NaN"
  | boolean b => !b
  | _ => false

theorem eq_of_isNaN {s : Scalar} (h : s.isNaN = true) :
    s = .nan ∨ s = .decimal (0.0 / 0.0) := by
  cases s with
  | nan => exact .inl rfl
  | decimal x => exact .inr (by rw [Decimal.eq_nan_of_isNaN h])
  | _ => cases h

theorem not_isNaN_and_fitsNull (s : Scalar) : (!s.isNaN && s.fitsNull) = s.fitsNull := by
  cases h : s.isNaN with
  | false => rfl
  | true =>
    rcases eq_of_isNaN h with rfl | rfl
    · rfl
    · exact (Decimal.isClose_nan_left 0.0).symm

theorem not_isNaN_and_fitsNaN (s : Scalar) : (!s.isNaN && s.fitsNaN) = s.fitsNaN := by
  cases h : s.isNaN with
  | false => rfl
  | true => rcases eq_of_isNaN h with rfl | rfl <;> rfl

end Scalar

namespace Value

variable {v w x : Value} {s t : Scalar} {vs : List Value}

theorem latest_of_scalar (scalar : v.content = .scalar s) : v.latest = s := by
  rw [← latest_inner, inner, scalar]
  rfl

theorem latest_of_list (listed : v.content = .list vs) : v.latest = latestOf vs := by
  rw [← latest_inner, inner, listed]
  rfl

theorem equals_of_scalar (scalar : v.content = .scalar s) (w : Value) :
    v.equals w = s.equals w := by
  rw [← equals_inner, inner, scalar]
  rfl

theorem latestOf_of_getLast? (last : vs.getLast? = some x) : latestOf vs = x.latest := by
  induction vs with
  | nil => cases last
  | cons v vs ih =>
    cases vs with
    | nil =>
      cases last
      rfl
    | cons v' vs => exact ih (by rwa [List.getLast?_cons_cons] at last)

theorem equalsLast_of_getLast? (last : vs.getLast? = some x) (w : Value) :
    equalsLast vs w = x.equals w := by
  induction vs with
  | nil => cases last
  | cons v vs ih =>
    cases vs with
    | nil =>
      cases last
      rfl
    | cons v' vs => exact ih (by rwa [List.getLast?_cons_cons] at last)

mutual

theorem latest_equals (scalar : w.content = .scalar s) :
    (v : Value) → v.equals w = true → v.latest.equals w = true
  | .scalar _, h => h
  | .list vs, h => by
    rw [equals, scalar] at h
    exact latestOf_equals scalar vs (Bool.and_eq_true_iff.1 h).2
  | .named subject _, h => latest_equals scalar subject h
  | .quoted subject _ _, h => latest_equals scalar subject h

theorem latestOf_equals (scalar : w.content = .scalar s) :
    (vs : List Value) → equalsLast vs w = true → (latestOf vs).equals w = true
  | [], h => nomatch h
  | [v], h => latest_equals scalar v h
  | _ :: v :: vs, h => latestOf_equals scalar (v :: vs) h

end

end Value

namespace Scalar

variable {v w x : Value} {s t : Scalar}

theorem equals_of_isNaN (s : Scalar) (scalar : w.content = .scalar t) (h : t.isNaN = true) :
    s.equals w = false := by
  have hnull : w.isNull = false := by
    rcases eq_of_isNaN h with rfl | rfl <;> simp [Value.isNull, scalar]
  have hnan : w.isNaN = true := by simp only [Value.isNaN, scalar, h]
  cases s <;> simp [equals, hnull, hnan]

theorem equals_eq_false (absent : t = .null ∨ t.isNaN = true) (known : w.isNull = false) :
    t.equals w = false := by
  rcases absent with rfl | h
  · exact known
  · cases t with
    | null => exact known
    | _ => simp only [equals, known, h, Bool.not_true, Bool.false_and]

theorem reads_null (s : Scalar) : s.reads .null = s.fitsNull := by
  cases s with
  | integer n =>
    have hzero : null.integer? = .ok 0 := by decide +kernel
    rw [reads, hzero, fitsNull]
  | decimal x => rw [reads, fitsNull, isNear, decimal?, decimal?]
  | boolean b => cases b <;> rfl
  | _ => rfl

theorem reads_of_isNaN (s : Scalar) (h : t.isNaN = true) : s.reads t = s.fitsNaN := by
  rcases eq_of_isNaN h with rfl | rfl
  all_goals
    cases s with
    | boolean b => cases b <;> rfl
    | decimal x => exact Decimal.isClose_nan_right x
    | roll count sides => exact Decimal.isClose_nan_right _
    | _ => rfl

/-- What is compared is the scalar that the other side stands for, unless both are rolls. -/
theorem matches_eq_reads (s : Scalar) (w : Value)
    (differ : ∀ count sides count' sides', s = .roll count sides →
      w.content ≠ .scalar (.roll count' sides')) : s.matches w = s.reads w.latest := by
  cases s with
  | roll count sides =>
    rw [Scalar.matches]
    split
    · rename_i hroll
      exact absurd hroll (differ _ _ _ _ rfl)
    · rfl
  | decimal x =>
    have hx : (decimal x).decimal? = .ok x := rfl
    simp only [Scalar.matches, reads, isNear, Value.decimal?, hx]
    cases w.latest.decimal? <;> rfl
  | _ => rfl

theorem equals_eq (known : s ≠ .null) (w : Value) :
    s.equals w = (!s.isNaN && !w.isNaN && w.hasValue && s.matches w) := by
  have hnull : w.isNull = true → w.hasValue = false := by
    simp only [Value.isNull, Value.hasValue]
    cases w.content with
    | list items => intro h; cases h
    | scalar t => cases t <;> simp
  cases hw : w.isNull with
  | true =>
    rw [hnull hw, Bool.and_false, Bool.false_and]
    cases s with
    | null => exact absurd rfl known
    | _ => simp only [equals, hw]
  | false =>
    cases s with
    | null => exact absurd rfl known
    | _ => simp only [equals, hw]

/-- The scalar and a list that ends in the value are not compared like the scalar and the value. -/
inductive Mistakes : Scalar → Value → Prop where
  /-- The value is null or an empty list, and the list is read as null. -/
  | absent {s : Scalar} {x : Value} (nothing : x.hasValue = false) (fits : s.fitsNull = true) :
    Mistakes s x
  | undefined {s : Scalar} {x : Value} (nan : x.isNaN = true) (fits : s.fitsNaN = true) :
    Mistakes s x
  /-- Both are rolls, and the list is read as the total of the second one. -/
  | rolls {count sides count' sides' : Int64} {x : Value}
    (rolled : x.content = .scalar (.roll count' sides'))
    (differ : ¬(count = count' ∧ sides = sides' ↔
      (roll count sides).isNear (.roll count' sides') = true)) :
    Mistakes (.roll count sides) x

end Scalar

namespace Value

variable {a x : Value} {s : Scalar} {xs : List Value}

theorem latest_of_not_hasValue (nothing : x.hasValue = false) : x.latest = .null := by
  rw [hasValue] at nothing
  cases hx : x.content with
  | scalar t =>
    rw [hx] at nothing
    rw [latest_of_scalar hx]
    cases t with
    | null => rfl
    | _ => cases nothing
  | list items =>
    rw [hx] at nothing
    rw [latest_of_list hx]
    cases items with
    | nil => rfl
    | cons v vs => cases nothing

theorem latest_isNaN_of_isNaN (nan : x.isNaN = true) : x.latest.isNaN = true := by
  rw [isNaN] at nan
  cases hx : x.content with
  | scalar t => rwa [hx, ← latest_of_scalar hx] at nan
  | list items =>
    rw [hx] at nan
    cases nan

theorem hasValue_of_isNaN (nan : x.isNaN = true) : x.hasValue = true := by
  by_contra h
  have hnull := latest_isNaN_of_isNaN nan
  rw [latest_of_not_hasValue (Bool.not_eq_true _ ▸ h)] at hnull
  cases hnull

theorem isNull_eq_false (scalar : a.content = .scalar s) (known : s ≠ .null) :
    a.isNull = false := by
  rw [isNull, scalar]
  cases s with
  | null => exact absurd rfl known
  | _ => rfl

theorem equals_list_right (scalar : a.content = .scalar s) (known : s ≠ .null)
    (last : xs.getLast? = some x) :
    a.equals (list xs) = (!s.isNaN && s.reads x.latest) := by
  have hvalue : (list xs).hasValue = true := by
    cases xs with
    | nil => cases last
    | cons v vs => rfl
  have hmatches : s.matches (list xs) = s.reads x.latest := by
    rw [← latestOf_of_getLast? last]
    exact s.matches_eq_reads (list xs) (by simp [content])
  rw [equals_of_scalar scalar, s.equals_eq known, hvalue, hmatches]
  simp [isNaN, content]

theorem equals_list_left (scalar : a.content = .scalar s) (known : s ≠ .null)
    (last : xs.getLast? = some x) : (list xs).equals a = x.equals a := by
  have hnull := isNull_eq_false scalar known
  have hlist : (list xs).equals a = (!s.isNaN && x.equals a) := by
    rw [equals, scalar, hnull, equalsLast_of_getLast? last]
    rfl
  rw [hlist]
  cases hnan : s.isNaN with
  | false => rfl
  | true =>
    cases hx : x.equals a with
    | false => rfl
    | true =>
      have hlatest := latest_equals scalar x hx
      rw [Scalar.equals_of_isNaN x.latest scalar hnan] at hlatest
      cases hlatest

theorem mistakes_iff_of_not_hasValue (nothing : x.hasValue = false) :
    s.Mistakes x ↔ s.fitsNull = true := by
  constructor
  · rintro (⟨-, fits⟩ | ⟨nan, -⟩ | ⟨rolled, -⟩)
    · exact fits
    · exact absurd (nothing.symm.trans (hasValue_of_isNaN nan)) Bool.false_ne_true
    · simp [hasValue, rolled] at nothing
  · exact .absent nothing

theorem mistakes_iff_of_isNaN (nan : x.isNaN = true) : s.Mistakes x ↔ s.fitsNaN = true := by
  constructor
  · rintro (⟨nothing, -⟩ | ⟨-, fits⟩ | ⟨rolled, -⟩)
    · exact absurd (nothing.symm.trans (hasValue_of_isNaN nan)) Bool.false_ne_true
    · exact fits
    · simp [isNaN, rolled, Scalar.isNaN] at nan
  · exact .undefined nan

theorem mistakes_iff_of_rolls {count sides count' sides' : Int64}
    (rolled : x.content = .scalar (.roll count' sides')) :
    (Scalar.roll count sides).Mistakes x ↔ ¬(count = count' ∧ sides = sides' ↔
      (Scalar.roll count sides).isNear (.roll count' sides') = true) := by
  constructor
  · intro h
    cases h with
    | absent nothing _ => simp [hasValue, rolled] at nothing
    | undefined nan _ => simp [isNaN, rolled, Scalar.isNaN] at nan
    | rolls rolled' differ =>
      cases rolled.symm.trans rolled'
      exact differ
  · exact .rolls rolled

theorem not_mistakes (value : x.hasValue = true) (number : x.isNaN = false)
    (differ : ∀ count sides count' sides', s = .roll count sides →
      x.content ≠ .scalar (.roll count' sides')) : ¬s.Mistakes x := by
  rintro (⟨nothing, -⟩ | ⟨nan, -⟩ | ⟨rolled, -⟩)
  · exact Bool.false_ne_true (nothing.symm.trans value)
  · exact Bool.false_ne_true (number.symm.trans nan)
  · exact differ _ _ _ _ rfl rolled

/-- A list on the right-hand side is compared like its last element, except where that is said to be
mistaken. -/
theorem equals_list_right_eq_iff (scalar : a.content = .scalar s) (known : s ≠ .null)
    (last : xs.getLast? = some x) :
    a.equals (list xs) = a.equals x ↔ ¬s.Mistakes x := by
  rw [equals_list_right scalar known last, equals_of_scalar scalar, s.equals_eq known]
  by_cases hvalue : x.hasValue = false
  · rw [mistakes_iff_of_not_hasValue hvalue, latest_of_not_hasValue hvalue, s.reads_null,
      s.not_isNaN_and_fitsNull]
    simp [hvalue]
  by_cases hnan : x.isNaN = true
  · rw [mistakes_iff_of_isNaN hnan, Scalar.reads_of_isNaN s (latest_isNaN_of_isNaN hnan),
      s.not_isNaN_and_fitsNaN]
    simp [hnan]
  have hvalue : x.hasValue = true := Bool.not_eq_false _ ▸ hvalue
  have hnan : x.isNaN = false := Bool.not_eq_true _ ▸ hnan
  rw [hvalue, hnan, Bool.not_false, Bool.and_true, Bool.and_true]
  by_cases hrolls : ∃ count sides count' sides', s = .roll count sides ∧
      x.content = .scalar (.roll count' sides')
  · obtain ⟨count, sides, count', sides', rfl, hx⟩ := hrolls
    rw [mistakes_iff_of_rolls hx, Scalar.matches, hx, latest_of_scalar hx, not_not]
    simp only [Scalar.isNaN, Scalar.reads, Bool.not_false, Bool.true_and]
    rw [Bool.eq_iff_iff, Bool.and_eq_true, beq_iff_eq, beq_iff_eq]
    exact Iff.comm
  · have hdiffer : ∀ count sides count' sides', s = .roll count sides →
        x.content ≠ .scalar (.roll count' sides') :=
      fun _ _ _ _ hs hx => hrolls ⟨_, _, _, _, hs, hx⟩
    rw [s.matches_eq_reads x hdiffer]
    exact iff_of_true rfl (not_mistakes hvalue hnan hdiffer)

/-- A list beside a scalar. On the left-hand side it is its last element. On the right-hand side it is
so too except where the last element is null, empty or not a number and the list is read as the
scalar, and except for rolls. A list that stands for null or for what is not a number never equals
a scalar, and on the other side equals just the scalars that these are read as. -/
theorem lists_beside_scalars (scalar : a.content = .scalar s) (known : s ≠ .null)
    (last : xs.getLast? = some x) :
    (list xs).equals a = x.equals a ∧
    (a.equals (list xs) = a.equals x ↔ ¬s.Mistakes x) ∧
    (x.latest = .null ∨ x.latest.isNaN = true →
      (list xs).equals a = false ∧
      (a.equals (list xs) = true ↔
        x.latest = .null ∧ s.fitsNull = true ∨ x.latest.isNaN = true ∧ s.fitsNaN = true)) := by
  refine ⟨equals_list_left scalar known last, equals_list_right_eq_iff scalar known last, ?_⟩
  intro absent
  constructor
  · rw [equals_list_left scalar known last]
    by_contra h
    have hlatest := latest_equals scalar x (Bool.not_eq_false _ ▸ h)
    rw [Scalar.equals_eq_false absent (isNull_eq_false scalar known)] at hlatest
    cases hlatest
  · rw [equals_list_right scalar known last]
    rcases absent with hnull | hnan
    · rw [hnull, s.reads_null, s.not_isNaN_and_fitsNull]
      simp [Scalar.isNaN]
    · have hnull : x.latest ≠ .null := by
        intro h
        rw [h] at hnan
        cases hnan
      rw [Scalar.reads_of_isNaN s hnan, s.not_isNaN_and_fitsNaN]
      simp [hnan, hnull]

/-- An empty text equals a list that ends in null, and not null itself, nor the list it. -/
theorem lists_beside_scalars_null :
    (text "").equals (list [null]) = true ∧ (text "").equals null ≠ (text "").equals (list [null]) ∧
      (list [null]).equals (text "") = false := by
  have hlast : [null].getLast? = some null := rfl
  obtain ⟨_, hright, habsent⟩ := lists_beside_scalars (a := text "") rfl (by decide) hlast
  obtain ⟨hleft, hequal⟩ := habsent (.inl rfl)
  have hmistaken : (Scalar.text "").Mistakes null := .absent rfl rfl
  exact ⟨hequal.2 (.inl ⟨rfl, rfl⟩), fun h => hright.1 h.symm hmistaken, hleft⟩

end Value

end FormulaEngine
