/-!
# Merging

Lists that are put together from what is kept of the elements of others. An element may decide the
whole, so that nothing is kept. Conjunctions and disjunctions are merged in this way.
-/
namespace FormulaEngine

/-- The truth of a disjunction (`absorbing` is true) or of a conjunction (it is false). -/
def junction (absorbing : Bool) (bs : List Bool) : Bool :=
  if absorbing ∈ bs then absorbing else !absorbing

section

variable (absorbing : Bool)

theorem junction_singleton (b : Bool) : junction absorbing [b] = b := by
  cases absorbing <;> cases b <;> rfl

/-- An element that decides the whole does so; any other one takes no part. -/
theorem junction_cons (b : Bool) (bs : List Bool) :
    junction absorbing (b :: bs) = if b = absorbing then absorbing else junction absorbing bs := by
  by_cases hb : b = absorbing
  · simp [junction, hb]
  · simp [junction, hb, Ne.symm hb]

theorem junction_append (bs cs : List Bool) : junction absorbing (bs ++ cs) =
    if junction absorbing bs = absorbing then absorbing else junction absorbing cs := by
  induction bs with
  | nil => simp [junction]
  | cons b bs ih =>
    rw [List.cons_append, junction_cons, junction_cons, ih]
    split <;> simp_all

end

theorem junction_true_iff {bs : List Bool} : junction true bs = true ↔ true ∈ bs := by
  simp [junction]

theorem junction_false_iff {bs : List Bool} : junction false bs = true ↔ ∀ b ∈ bs, b = true := by
  induction bs with
  | nil => simp [junction]
  | cons b bs ih => cases b <;> simp [junction_cons, ih]

/-- What is kept of the elements comes in their order; where one of them decides the whole, nothing
is kept. -/
structure Merges {α : Type} (kept : α → Option (List α)) (keep : List α → Option (List α)) :
    Prop where
  nil : keep [] = some []
  cons (a : α) (as : List α) :
    keep (a :: as) = (kept a).bind fun now => (keep as).map (now ++ ·)

namespace Merges

variable {α : Type} {kept : α → Option (List α)} {keep : List α → Option (List α)}
  {as bs : List α} (merges : Merges kept keep)

include merges

theorem cons_eq_some {a : α} (h : keep (a :: as) = some bs) :
    ∃ now later, kept a = some now ∧ keep as = some later ∧ bs = now ++ later := by
  rw [merges.cons] at h
  obtain ⟨now, hnow, hmore⟩ := Option.bind_eq_some_iff.1 h
  obtain ⟨later, hlater, rfl⟩ := Option.map_eq_some_iff.1 hmore
  exact ⟨now, later, hnow, hlater, rfl⟩

theorem forall_mem {P Q : α → Prop} (each : ∀ a bs, kept a = some bs → P a → ∀ b ∈ bs, Q b)
    (h : keep as = some bs) (has : ∀ a ∈ as, P a) : ∀ b ∈ bs, Q b := by
  induction as generalizing bs with
  | nil =>
    rw [merges.nil] at h
    cases h
    nofun
  | cons a as ih =>
    obtain ⟨now, later, hnow, hlater, rfl⟩ := merges.cons_eq_some h
    obtain ⟨ha, hrest⟩ := List.forall_mem_cons.1 has
    exact List.forall_mem_append.2 ⟨each a now hnow ha, ih hlater hrest⟩

variable {absorbing : Bool} {truth : α → Bool}

theorem junction_of_eq_none (decides : ∀ a, kept a = none → truth a = absorbing)
    (h : keep as = none) : junction absorbing (as.map truth) = absorbing := by
  induction as with
  | nil =>
    rw [merges.nil] at h
    cases h
  | cons a as ih =>
    rw [List.map_cons, junction_cons]
    rw [merges.cons] at h
    cases hnow : kept a with
    | none => rw [decides a hnow, if_pos rfl]
    | some now =>
      have hlater : keep as = none := by simpa [hnow] using h
      rw [ih hlater, ite_self]

theorem junction_of_eq_some
    (stands : ∀ a bs, kept a = some bs → junction absorbing (bs.map truth) = truth a)
    (h : keep as = some bs) :
    junction absorbing (bs.map truth) = junction absorbing (as.map truth) := by
  induction as generalizing bs with
  | nil =>
    rw [merges.nil] at h
    cases h
    rfl
  | cons a as ih =>
    obtain ⟨now, later, hnow, hlater, rfl⟩ := merges.cons_eq_some h
    rw [List.map_append, junction_append, stands a now hnow, ih hlater, List.map_cons,
      junction_cons]

end Merges

end FormulaEngine
