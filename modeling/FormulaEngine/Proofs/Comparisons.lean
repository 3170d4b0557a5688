import FormulaEngine.Formula.Arithmetic
import FormulaEngine.Proofs.Conversion
import FormulaEngine.Proofs.Execution

/-!
# Comparisons of integers

Integers are compared as decimals, while equality compares them as they are. Two integers that
become the same decimal are neither below nor above one another, even if they are different, and the
first one of them counts as the least and as the greatest.
-/
namespace FormulaEngine.Formula

open Decimal (nearest)

/-- The integers cannot be told apart as decimals. -/
def SameDecimal (a b : Int64) : Prop := nearest a.toInt = nearest b.toInt

instance (a b : Int64) : Decidable (SameDecimal a b) := inferInstanceAs (Decidable (_ = _))

section Order

variable {a b : Int64}

theorem SameDecimal.symm (h : SameDecimal a b) : SameDecimal b a := Eq.symm h

theorem sameDecimal_iff_of_small (ha : a.toInt.natAbs ≤ 2 ^ 53) (hb : b.toInt.natAbs ≤ 2 ^ 53) :
    SameDecimal a b ↔ a = b := by
  rw [SameDecimal, Decimal.nearest_eq_self ha, Decimal.nearest_eq_self hb, Int64.toInt_inj]

theorem nearest_lt_iff : nearest a.toInt < nearest b.toInt ↔ a < b ∧ ¬ SameDecimal a b := by
  constructor
  · intro h
    exact ⟨Int64.lt_iff_toInt_lt.2 (Decimal.lt_of_nearest_lt h), h.ne⟩
  · rintro ⟨hless, hdifferent⟩
    have hle := Decimal.nearest_mono (Int64.lt_iff_toInt_lt.1 hless).le
    exact lt_of_le_of_ne hle hdifferent

theorem nearest_le_iff : nearest a.toInt ≤ nearest b.toInt ↔ a ≤ b ∨ SameDecimal a b := by
  rw [← not_lt, nearest_lt_iff, not_and_or, not_not, Int64.not_lt]
  exact or_congr_right ⟨SameDecimal.symm, SameDecimal.symm⟩

theorem compare_integer {test : Ordering → Bool} {p : Prop} [Decidable p]
    (tests : test (Ord.compare (nearest a.toInt) (nearest b.toInt)) = true ↔ p) :
    compare test (.integer a) (.integer b) = .ok (.boolean (decide p)) := by
  have horder := Decimal.order?_ofInteger a b
  change Except.ok (Value.boolean
    ((Decimal.order? (Decimal.ofInteger a) (Decimal.ofInteger b)).any test)) = _
  rw [horder, Option.any_some, Bool.eq_iff_iff.2 (tests.trans decide_eq_true_iff.symm)]

end Order

section Extremum

/-- Of the integers, the first one whose decimal is the least or the greatest of all. -/
structure IsExtremum (keep : Ordering) (before : List Int64) (m : Int64) (after : List Int64) :
    Prop where
  beats : ∀ k ∈ before, Ord.compare (nearest m.toInt) (nearest k.toInt) = keep
  unbeaten : ∀ k ∈ after, Ord.compare (nearest k.toInt) (nearest m.toInt) ≠ keep

variable {keep : Ordering}

theorem better_integer (keep : Ordering) (m k : Int64) :
    better keep (some (.integer m, Decimal.ofInteger m)) (.integer k) =
      .ok (if Ord.compare (nearest k.toInt) (nearest m.toInt) = keep then
        some (.integer k, Decimal.ofInteger k) else some (.integer m, Decimal.ofInteger m)) := by
  have horder := Decimal.order?_ofInteger k m
  change Except.ok (if Decimal.order? (Decimal.ofInteger k) (Decimal.ofInteger m) = some keep then
    some (Value.integer k, Decimal.ofInteger k) else some (.integer m, Decimal.ofInteger m)) = _
  rw [horder]
  simp only [Option.some.injEq]

theorem beats_of_unbeaten (strict : keep ≠ .eq) {x y z : Int} (beats : Ord.compare x y = keep)
    (unbeaten : Ord.compare z y ≠ keep) : Ord.compare x z = keep := by
  cases keep with
  | lt =>
    rw [compare_lt_iff_lt] at *
    rw [Ne, compare_lt_iff_lt] at unbeaten
    omega
  | eq => contradiction
  | gt =>
    rw [compare_gt_iff_gt] at *
    rw [Ne, compare_gt_iff_gt] at unbeaten
    omega

theorem unbeaten_of_beats (strict : keep ≠ .eq) {x y : Int} (beats : Ord.compare x y = keep) :
    Ord.compare y x ≠ keep := by
  have hswap : Ord.compare y x = keep.swap := by
    rw [← beats]
    exact Std.OrientedCmp.eq_swap
  rw [hswap]
  cases keep <;> simp_all

/-- The next integer takes the place of the best one so far if it is better, and is then better than
all that came before. -/
theorem IsExtremum.next (strict : keep ≠ .eq) {before after : List Int64} {m : Int64}
    (h : IsExtremum keep before m after) (k : Int64) :
    if Ord.compare (nearest k.toInt) (nearest m.toInt) = keep then
      IsExtremum keep (before ++ m :: after) k []
    else IsExtremum keep before m (after ++ [k]) := by
  split
  · rename_i hbeats
    refine ⟨fun j hj => ?_, nofun⟩
    rcases List.mem_append.1 hj with hj | hj
    · exact beats_of_unbeaten strict hbeats (unbeaten_of_beats strict (h.beats j hj))
    · rcases List.mem_cons.1 hj with rfl | hj
      · exact hbeats
      · exact beats_of_unbeaten strict hbeats (h.unbeaten j hj)
  · rename_i hloses
    refine ⟨h.beats, fun j hj => ?_⟩
    rcases List.mem_append.1 hj with hj | hj
    · exact h.unbeaten j hj
    · rwa [List.mem_singleton.1 hj]

theorem exists_isExtremum_foldlM (strict : keep ≠ .eq) {before after : List Int64} {m : Int64}
    (h : IsExtremum keep before m after) (ks : List Int64) :
    ∃ before' m' after', before ++ m :: after ++ ks = before' ++ m' :: after' ∧
      (ks.map Value.integer).foldlM (better keep) (some (.integer m, Decimal.ofInteger m)) =
        .ok (some (.integer m', Decimal.ofInteger m')) ∧
      IsExtremum keep before' m' after' := by
  induction ks generalizing before m after with
  | nil => exact ⟨before, m, after, List.append_nil _, rfl, h⟩
  | cons k ks ih =>
    have hnext := h.next strict k
    rw [List.map_cons, List.foldlM_cons, better_integer]
    split at hnext
    · rename_i hbeats
      obtain ⟨before', m', after', hall, hfold, hbest⟩ := ih hnext
      rw [if_pos hbeats]
      exact ⟨before', m', after', by rw [← hall]; simp, hfold, hbest⟩
    · rename_i hloses
      obtain ⟨before', m', after', hall, hfold, hbest⟩ := ih hnext
      rw [if_neg hloses]
      exact ⟨before', m', after', by rw [← hall]; simp, hfold, hbest⟩

/-- The extremum of integers is the first one whose decimal is not beaten. -/
theorem exists_isExtremum (keep : Ordering) (strict : keep ≠ .eq) {ns : List Int64}
    (ne : ns ≠ []) :
    ∃ before m after, ns = before ++ m :: after ∧
      extremum keep (ns.map Value.integer) = .ok (.integer m) ∧
      IsExtremum keep before m after := by
  obtain ⟨n, ns, rfl⟩ := List.exists_cons_of_ne_nil ne
  have hfirst : IsExtremum keep [] n [] := ⟨nofun, nofun⟩
  obtain ⟨before, m, after, hall, hfold, hbest⟩ := exists_isExtremum_foldlM strict hfirst ns
  refine ⟨before, m, after, hall, ?_, hbest⟩
  have hstart : better keep none (.integer n) = .ok (some (.integer n, Decimal.ofInteger n)) := rfl
  rw [extremum, List.map_cons, List.foldlM_cons, hstart, ok_bind, hfold]
  rfl

theorem exists_minimum {ns : List Int64} (ne : ns ≠ []) :
    ∃ before m after, ns = before ++ m :: after ∧
      extremum .lt (ns.map Value.integer) = .ok (.integer m) ∧
      (∀ k ∈ before, m < k ∧ ¬ SameDecimal m k) ∧ ∀ k ∈ after, m ≤ k ∨ SameDecimal m k := by
  obtain ⟨before, m, after, hall, hvalue, hbest⟩ := exists_isExtremum .lt nofun ne
  refine ⟨before, m, after, hall, hvalue, fun k hk => ?_, fun k hk => ?_⟩
  · exact nearest_lt_iff.1 (compare_lt_iff_lt.1 (hbest.beats k hk))
  · exact nearest_le_iff.1 (not_lt.1 (mt compare_lt_iff_lt.2 (hbest.unbeaten k hk)))

theorem exists_maximum {ns : List Int64} (ne : ns ≠ []) :
    ∃ before m after, ns = before ++ m :: after ∧
      extremum .gt (ns.map Value.integer) = .ok (.integer m) ∧
      (∀ k ∈ before, k < m ∧ ¬ SameDecimal k m) ∧ ∀ k ∈ after, k ≤ m ∨ SameDecimal k m := by
  obtain ⟨before, m, after, hall, hvalue, hbest⟩ := exists_isExtremum .gt nofun ne
  refine ⟨before, m, after, hall, hvalue, fun k hk => ?_, fun k hk => ?_⟩
  · exact nearest_lt_iff.1 (compare_gt_iff_gt.1 (hbest.beats k hk))
  · exact nearest_le_iff.1 (not_lt.1 (mt compare_gt_iff_gt.2 (hbest.unbeaten k hk)))

end Extremum

theorem equals_integer (a b : Int64) :
    (Value.integer a).equals (.integer b) = decide (a = b) := by
  change (a == b) = decide (a = b)
  exact beq_eq_decide a b

/-- Comparisons follow the order of integers, except that integers with the same decimal count as
equal in them; so they do for the least and the greatest one of several integers. Equality tells all
integers apart, and decimals do so up to `2^53`. -/
theorem integers_compare_as_decimals (strict : Bool) :
    (∀ a b : Int64,
      binary strict .below (.integer a) (.integer b) =
          .ok (.boolean (decide (a < b ∧ ¬ SameDecimal a b))) ∧
        binary strict .atMost (.integer a) (.integer b) =
          .ok (.boolean (decide (a ≤ b ∨ SameDecimal a b))) ∧
        binary strict .above (.integer a) (.integer b) =
          .ok (.boolean (decide (b < a ∧ ¬ SameDecimal b a))) ∧
        binary strict .atLeast (.integer a) (.integer b) =
          .ok (.boolean (decide (b ≤ a ∨ SameDecimal b a))) ∧
        binary strict .equal (.integer a) (.integer b) = .ok (.boolean (decide (a = b))) ∧
        binary strict .different (.integer a) (.integer b) = .ok (.boolean (decide (a ≠ b)))) ∧
      (∀ a b : Int64, a.toInt.natAbs ≤ 2 ^ 53 → b.toInt.natAbs ≤ 2 ^ 53 →
        (SameDecimal a b ↔ a = b)) ∧
      ∀ (vs : List Value) (ns : List Int64), ns ≠ [] → Value.flatten vs = ns.map Value.integer →
        (∃ before m after, ns = before ++ m :: after ∧
          functionN strict .min vs = .ok (.integer m) ∧
          (∀ k ∈ before, m < k ∧ ¬ SameDecimal m k) ∧ ∀ k ∈ after, m ≤ k ∨ SameDecimal m k) ∧
        ∃ before m after, ns = before ++ m :: after ∧
          functionN strict .max vs = .ok (.integer m) ∧
          (∀ k ∈ before, k < m ∧ ¬ SameDecimal k m) ∧ ∀ k ∈ after, k ≤ m ∨ SameDecimal k m := by
  refine ⟨fun a b => ⟨?_, ?_, ?_, ?_, ?_, ?_⟩, fun a b => sameDecimal_iff_of_small,
    fun vs ns ne flat => ⟨?_, ?_⟩⟩
  · exact compare_integer (Ordering.isLT_iff_eq_lt.trans (compare_lt_iff_lt.trans nearest_lt_iff))
  · exact compare_integer (Std.isLE_compare.trans nearest_le_iff)
  · exact compare_integer (Ordering.isGT_iff_eq_gt.trans (compare_gt_iff_gt.trans nearest_lt_iff))
  · exact compare_integer (Std.isGE_compare.trans nearest_le_iff)
  · rw [binary, equals_integer]
  · rw [binary, equals_integer, decide_not]
  · rw [functionN, flat]
    exact exists_minimum ne
  · rw [functionN, flat]
    exact exists_maximum ne

theorem integers_compare_as_decimals_neighbours :
    binary false .below (.integer 9007199254740992) (.integer 9007199254740993) =
        .ok (.boolean false) ∧
      (9007199254740991 : Int64).toInt.natAbs ≤ 2 ^ 53 ∧
      (9007199254740992 : Int64).toInt.natAbs ≤ 2 ^ 53 ∧
      ¬ SameDecimal 9007199254740991 9007199254740992 ∧
      [(9007199254740992 : Int64), 9007199254740993] ≠ [] ∧
      Value.flatten [.list [.integer 9007199254740992, .integer 9007199254740993]] =
        [9007199254740992, 9007199254740993].map Value.integer ∧
      functionN false .max [.list [.integer 9007199254740992, .integer 9007199254740993]] =
        .ok (.integer 9007199254740992) := by
  obtain ⟨hcompare, hsmall, hextremum⟩ := integers_compare_as_decimals false
  have hflat : Value.flatten [.list [.integer 9007199254740992, .integer 9007199254740993]] =
      [9007199254740992, 9007199254740993].map Value.integer := by
    simp [Value.flatten, Value.content]
  have hne : [(9007199254740992 : Int64), 9007199254740993] ≠ [] := by decide
  refine ⟨(hcompare _ _).1, by decide, by decide, ?_, hne, hflat, ?_⟩
  · exact mt (hsmall _ _ (by decide) (by decide)).1 (by decide)
  · obtain ⟨before, m, after, hall, hvalue, hbefore, _⟩ := (hextremum _ _ hne hflat).2
    cases before with
    | nil =>
      obtain ⟨rfl, _⟩ := List.cons.inj hall
      exact hvalue
    | cons k before =>
      obtain ⟨rfl, hrest⟩ := List.cons.inj hall
      have hm : m ∈ [(9007199254740993 : Int64)] := by
        rw [hrest]
        simp
      obtain rfl := List.mem_singleton.1 hm
      exact absurd (by decide) (hbefore 9007199254740992 (by simp)).2

end FormulaEngine.Formula
