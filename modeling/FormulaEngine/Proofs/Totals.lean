import FormulaEngine.Proofs.IntegerTrees
import Mathlib.Data.List.Infix

/-!
# Totals

Nulls do not disturb a sum. A total of nulls is null, and beside an integer a null counts as zero;
the integers are added up exactly as long as no running total leaves the range.
-/
namespace FormulaEngine.Formula

/-- A null, with or without wrappers, or an integer without any. -/
def IsSummand (v : Value) : Prop := v.isNull = true ∨ ∃ n, v = .integer n

def integersOf (vs : List Value) : List Int64 :=
  vs.filterMap fun
    | .scalar (.integer n) => some n
    | _ => none

def total (ns : List Int64) : Int := (ns.map Int64.toInt).sum

def InRange (n : Int) : Prop := Integer.least ≤ n ∧ n ≤ Integer.greatest

instance (n : Int) : Decidable (InRange n) := inferInstanceAs (Decidable (_ ∧ _))

section

variable {v : Value} {vs ws : List Value} {n m : Int64}

theorem isNull_integer (n : Int64) : (Value.integer n).isNull = false := rfl

theorem integersOf_append (vs ws : List Value) :
    integersOf (vs ++ ws) = integersOf vs ++ integersOf ws := List.filterMap_append

theorem integersOf_null (h : v.isNull = true) : integersOf [v] = [] := by
  have hne (n : Int64) : v ≠ .integer n := by
    rintro rfl
    cases h
  unfold integersOf
  grind

theorem integersOf_nulls (h : ∀ v ∈ vs, v.isNull = true) : integersOf vs = [] := by
  induction vs with
  | nil => rfl
  | cons v vs ih =>
    obtain ⟨hv, hvs⟩ := List.forall_mem_cons.1 h
    rw [← List.singleton_append, integersOf_append, integersOf_null hv, ih hvs, List.append_nil]

theorem integersOf_integer (n : Int64) : integersOf [.integer n] = [n] := rfl

theorem total_append (ns ms : List Int64) : total (ns ++ ms) = total ns + total ms := by
  rw [total, List.map_append, List.sum_append, total, total]

theorem total_singleton (n : Int64) : total [n] = n.toInt := by
  rw [total, List.map_singleton, List.sum_singleton]

theorem exists_add (strict : Bool) (fits : InRange (n.toInt + m.toInt)) :
    ∃ k : Int64, k.toInt = n.toInt + m.toInt ∧
      lenient strict (add (.integer n) (.integer m)) = .ok (.integer k) := by
  have hsome := Integer.ofInt?_eq_some.2 ⟨fits.1, fits.2, rfl⟩
  have computes : BinaryOperator.add.onIntegers? = some (· + ·) := rfl
  exact exists_binary strict computes (Option.isSome_of_eq_some hsome)

/-- What values add up to: nulls to a null, and to the sum of their integers if there are any. -/
inductive IsTotal (vs : List Value) : Value → Prop
  | null {t : Value} (all : ∀ v ∈ vs, v.isNull = true) (null : t.isNull = true)
      (bare : .null ∈ vs → t = .null) : IsTotal vs t
  | integer {n : Int64} (some : integersOf vs ≠ []) (exact : n.toInt = total (integersOf vs)) :
      IsTotal vs (.integer n)

theorem IsTotal.single (hv : IsSummand v) : IsTotal [v] v := by
  obtain hnull | ⟨n, rfl⟩ := hv
  · exact .null (List.forall_mem_singleton.2 hnull) hnull fun h => (List.mem_singleton.1 h).symm
  · exact .integer (List.cons_ne_nil _ _) (by rw [integersOf_integer, total_singleton])

theorem IsTotal.next {t : Value} (strict : Bool) (h : IsTotal vs t) (hv : IsSummand v)
    (fits : InRange (total (integersOf (vs ++ [v])))) :
    ∃ t', addNext strict t v = .ok t' ∧ IsTotal (vs ++ [v]) t' := by
  cases h with
  | null all null _ =>
    obtain hnull | ⟨n, rfl⟩ := hv
    · have hall : ∀ w ∈ vs ++ [v], w.isNull = true :=
        List.forall_mem_append.2 ⟨all, List.forall_mem_singleton.2 hnull⟩
      exact ⟨.null, by simp only [addNext, null, hnull], .null hall rfl fun _ => rfl⟩
    · have hsum : integersOf (vs ++ [.integer n]) = [n] := by
        rw [integersOf_append, integersOf_nulls all, integersOf_integer, List.nil_append]
      rw [hsum, total_singleton] at fits
      obtain ⟨k, hk, hadd⟩ := exists_add (n := 0) (m := n) strict (by simpa using fits)
      refine ⟨.integer k, by simp only [addNext, null, isNull_integer, hadd], .integer ?_ ?_⟩
      · rw [hsum]
        exact List.cons_ne_nil _ _
      · rw [hsum, total_singleton, hk, Int64.toInt_zero, Int.zero_add]
  | @integer n some exact =>
    obtain hnull | ⟨m, rfl⟩ := hv
    · have hsum : integersOf (vs ++ [v]) = integersOf vs := by
        rw [integersOf_append, integersOf_null hnull, List.append_nil]
      rw [hsum, ← exact] at fits
      obtain ⟨k, hk, hadd⟩ := exists_add (n := n) (m := 0) strict (by simpa using fits)
      refine ⟨.integer k, by simp only [addNext, isNull_integer, hnull, hadd], .integer ?_ ?_⟩
      · rwa [hsum]
      · rw [hsum, ← exact, hk, Int64.toInt_zero, Int.add_zero]
    · have hsum : total (integersOf (vs ++ [.integer m])) = n.toInt + m.toInt := by
        rw [integersOf_append, total_append, integersOf_integer, total_singleton, exact]
      rw [hsum] at fits
      obtain ⟨k, hk, hadd⟩ := exists_add strict fits
      refine ⟨.integer k, by simp only [addNext, isNull_integer, hadd], .integer ?_ ?_⟩
      · rw [integersOf_append]
        exact List.append_ne_nil_of_left_ne_nil some _
      · rw [hsum, hk]

/-- A total stays one from value to value, where the running totals of the integers are in range. -/
theorem IsTotal.foldlM {t : Value} (strict : Bool) (h : IsTotal vs t)
    (plain : ∀ w ∈ ws, IsSummand w)
    (fits : ∀ ns, ns <+: integersOf (vs ++ ws) → InRange (total ns)) :
    ∃ t', ws.foldlM (addNext strict) t = .ok t' ∧ IsTotal (vs ++ ws) t' := by
  induction ws generalizing vs t with
  | nil => exact ⟨t, rfl, by rwa [List.append_nil]⟩
  | cons w ws ih =>
    obtain ⟨hw, hws⟩ := List.forall_mem_cons.1 plain
    have hall : vs ++ w :: ws = vs ++ [w] ++ ws := by simp
    rw [hall] at fits ⊢
    obtain ⟨t', hadd, htotal⟩ := h.next strict hw
      (fits _ (by rw [integersOf_append _ ws]; exact List.prefix_append _ _))
    rw [List.foldlM_cons, hadd, ok_bind]
    exact ih htotal hws fits

theorem exists_isTotal (strict : Bool) (ne : vs ≠ []) (plain : ∀ v ∈ vs, IsSummand v)
    (fits : ∀ ns, ns <+: integersOf vs → InRange (total ns)) :
    ∃ t, sum strict vs = .ok t ∧ IsTotal vs t := by
  obtain ⟨v, vs, rfl⟩ := List.exists_cons_of_ne_nil ne
  obtain ⟨hv, hvs⟩ := List.forall_mem_cons.1 plain
  exact (IsTotal.single hv).foldlM strict hvs fits

end

/-- The sum of nulls and integers is zero if there are none, null if there are only nulls, and
otherwise the exact sum of the integers, provided that all running totals are in range; it does not
matter how many nulls there are, and where. -/
theorem sum_disregards_nulls (strict : Bool) (vs : List Value)
    (plain : ∀ v ∈ Value.flatten vs, IsSummand v) :
    (Value.flatten vs = [] → functionN strict .sum vs = .ok (.integer 0)) ∧
      (Value.flatten vs ≠ [] → (∀ v ∈ Value.flatten vs, v.isNull = true) →
        ∃ t, functionN strict .sum vs = .ok t ∧ t.isNull = true ∧
          (.null ∈ Value.flatten vs → t = .null)) ∧
      (integersOf (Value.flatten vs) ≠ [] →
        (∀ ns, ns <+: integersOf (Value.flatten vs) → InRange (total ns)) →
        ∃ n : Int64, functionN strict .sum vs = .ok (.integer n) ∧
          n.toInt = total (integersOf (Value.flatten vs))) := by
  rw [functionN]
  refine ⟨fun hnil => by rw [hnil, sum], fun ne nulls => ?_, fun ne fits => ?_⟩
  · have hnone := integersOf_nulls nulls
    have fits : ∀ ns, ns <+: integersOf (Value.flatten vs) → InRange (total ns) := by
      intro ns hns
      rw [hnone, List.prefix_nil] at hns
      rw [hns]
      decide
    obtain ⟨t, hsum, htotal⟩ := exists_isTotal strict ne plain fits
    cases htotal with
    | null _ null bare => exact ⟨t, hsum, null, bare⟩
    | integer some _ => exact absurd hnone some
  · have hvalues : Value.flatten vs ≠ [] := by
      intro hnil
      rw [hnil] at ne
      exact ne rfl
    obtain ⟨t, hsum, htotal⟩ := exists_isTotal strict hvalues plain fits
    cases htotal with
    | null all _ _ => exact absurd (integersOf_nulls all) ne
    | @integer n _ exact => exact ⟨n, hsum, exact⟩

/-- Nulls around the greatest integer do not turn the sum into a decimal, neither does a null that
stands alone turn into zero. -/
theorem sum_disregards_nulls_nested :
    (∀ v ∈ Value.flatten [.null, .list [.integer 9223372036854775807, .null, .list []],
        .integer (-1), .null], IsSummand v) ∧
      functionN true .sum [.null, .list [.integer 9223372036854775807, .null, .list []],
        .integer (-1), .null] = .ok (.integer 9223372036854775806) ∧
      (∀ v ∈ Value.flatten [.list [.null]], IsSummand v) ∧
      functionN false .sum [.list [.null]] = .ok .null ∧
      functionN false .sum [.list []] = .ok (.integer 0) := by
  have hflat : Value.flatten [.null, .list [.integer 9223372036854775807, .null, .list []],
      .integer (-1), .null] =
      [.null, .integer 9223372036854775807, .null, .integer (-1), .null] := by
    simp [Value.flatten, Value.content]
  have hplain : ∀ v ∈ Value.flatten [.null, .list [.integer 9223372036854775807, .null, .list []],
      .integer (-1), .null], IsSummand v := by
    simp [hflat, IsSummand, Value.isNull, Value.content]
  have halone : Value.flatten [.list [.null]] = [.null] := by simp [Value.flatten, Value.content]
  have hempty : Value.flatten [.list []] = [] := by simp [Value.flatten, Value.content]
  have hplain' : ∀ v ∈ Value.flatten [.list [.null]], IsSummand v := by
    simp [halone, IsSummand, Value.isNull, Value.content]
  refine ⟨hplain, ?_, hplain', ?_, ?_⟩
  · have hsum := (sum_disregards_nulls true _ hplain).2.2
    have hintegers : integersOf
        [.null, .integer 9223372036854775807, .null, .integer (-1), .null] =
        [9223372036854775807, -1] := rfl
    rw [hflat, hintegers] at hsum
    have hrange : ∀ ns ∈ List.inits [(9223372036854775807 : Int64), -1], InRange (total ns) := by
      decide
    obtain ⟨n, hvalue, hexact⟩ := hsum (by decide) fun ns hns =>
      hrange ns ((List.mem_inits _ _).2 hns)
    have hn : n = 9223372036854775806 := Int64.toInt_inj.1 (hexact.trans (by decide))
    rw [hvalue, hn]
  · obtain ⟨t, hvalue, _, hnull⟩ := (sum_disregards_nulls false _ hplain').2.1
      (by simp [halone]) (by simp [halone, Value.isNull, Value.content])
    rw [hvalue, hnull (by simp [halone])]
  · exact (sum_disregards_nulls false [.list []] (by simp [hempty])).1 hempty

end FormulaEngine.Formula
