import FormulaEngine.Formula.Flatten
import Mathlib.Data.List.Basic
import Mathlib.Logic.Function.Iterate

/-!
# Depth-first order

Flattening finds the values that are no lists in depth-first order, the one in which the paths to
them are sorted. It can be done by a loop that keeps the values to be looked at on a stack, the next
one on top; what has been put out and what the stack still holds make up the whole at every turn.
-/
namespace FormulaEngine

namespace Value

mutual

/-- The values in a value that are no lists, from left to right. They keep their wrappers, those of
lists are dropped. -/
def leaves : Value → List Value
  | scalar s => [scalar s]
  | list items => leavesEach items
  | named subject label => if subject.isList then subject.leaves else [named subject label]
  | quoted subject opening closing =>
    if subject.isList then subject.leaves else [quoted subject opening closing]

def leavesEach : List Value → List Value
  | [] => []
  | v :: vs => v.leaves ++ leavesEach vs

end

mutual

/-- The paths to the values in a value that are no lists: the places of the lists on the way down,
and then their own. -/
def paths : Value → List (List Nat)
  | scalar _ => [[]]
  | list items => pathsEach 0 items
  | named subject _ => subject.paths
  | quoted subject _ _ => subject.paths

def pathsEach (i : Nat) : List Value → List (List Nat)
  | [] => []
  | v :: vs => v.paths.map (i :: ·) ++ pathsEach (i + 1) vs

end

/-- What stands at the end of a path that leads down through lists. -/
def at? (v : Value) : List Nat → Option Value
  | [] => some v
  | i :: path =>
    match v.content with
    | .list items => items[i]?.bind (·.at? path)
    | .scalar _ => none

section

variable {s : Scalar} {items : List Value}

theorem isList_of_list {v : Value} (h : v.content = .list items) : v.isList = true := by
  rw [isList, h]

theorem isList_of_scalar {v : Value} (h : v.content = .scalar s) : v.isList = false := by
  rw [isList, h]

theorem items_of_list {v : Value} (h : v.content = .list items) : v.items = items := by
  rw [Value.items, h]

theorem leaves_of_list : (v : Value) → v.content = .list items → v.leaves = leavesEach items
  | scalar _, h => nomatch h
  | list _, rfl => rfl
  | named subject label, h => by
    rw [leaves, if_pos (isList_of_list (v := subject) h), subject.leaves_of_list h]
  | quoted subject opening closing, h => by
    rw [leaves, if_pos (isList_of_list (v := subject) h), subject.leaves_of_list h]

theorem leaves_of_scalar : (v : Value) → v.content = .scalar s → v.leaves = [v]
  | scalar _, _ => rfl
  | list _, h => nomatch h
  | named subject label, h => by
    simp [leaves, isList_of_scalar (v := subject) h]
  | quoted subject opening closing, h => by
    simp [leaves, isList_of_scalar (v := subject) h]

theorem paths_of_list : (v : Value) → v.content = .list items → v.paths = pathsEach 0 items
  | scalar _, h => nomatch h
  | list _, rfl => rfl
  | named subject _, h => subject.paths_of_list h
  | quoted subject _ _, h => subject.paths_of_list h

theorem paths_of_scalar : (v : Value) → v.content = .scalar s → v.paths = [[]]
  | scalar _, _ => rfl
  | list _, h => nomatch h
  | named subject _, h => subject.paths_of_scalar h
  | quoted subject _ _, h => subject.paths_of_scalar h

end

theorem leavesEach_append (vs ws : List Value) :
    leavesEach (vs ++ ws) = leavesEach vs ++ leavesEach ws := by
  induction vs with
  | nil => rfl
  | cons v vs ih => rw [List.cons_append, leavesEach, ih, leavesEach, List.append_assoc]

theorem flatten_eq_leavesEach (vs : List Value) : flatten vs = leavesEach vs := by
  fun_induction flatten vs with
  | case1 => rfl
  | case2 v vs items hlist ih => rw [ih, leavesEach_append, leavesEach, v.leaves_of_list hlist]
  | case3 v vs s hscalar ih =>
    rw [ih, leavesEach, v.leaves_of_scalar hscalar]
    rfl

section Paths

theorem mem_pathsEach {i : Nat} {vs : List Value} {path : List Nat} :
    path ∈ pathsEach i vs ↔
      ∃ j v rest, vs[j]? = some v ∧ rest ∈ v.paths ∧ path = (i + j) :: rest := by
  induction vs generalizing i with
  | nil => simp [pathsEach]
  | cons v vs ih =>
    rw [pathsEach, List.mem_append, List.mem_map, ih]
    constructor
    · rintro (⟨rest, hrest, rfl⟩ | ⟨j, w, rest, hw, hrest, rfl⟩)
      · exact ⟨0, v, rest, rfl, hrest, rfl⟩
      · exact ⟨j + 1, w, rest, by simpa using hw, hrest, by congr 1; omega⟩
    · rintro ⟨_ | j, w, rest, hw, hrest, rfl⟩
      · cases hw
        exact .inl ⟨rest, hrest, rfl⟩
      · exact .inr ⟨j, w, rest, by simpa using hw, hrest, by congr 1; omega⟩

theorem mem_paths_iff (v : Value) (path : List Nat) :
    path ∈ v.paths ↔ ∃ w, v.at? path = some w ∧ w.isList = false := by
  induction path generalizing v with
  | nil =>
    simp only [at?, Option.some.injEq, exists_eq_left']
    cases hcontent : v.content with
    | scalar s => simp [v.paths_of_scalar hcontent, isList_of_scalar hcontent]
    | list items => simp [v.paths_of_list hcontent, isList_of_list hcontent, mem_pathsEach]
  | cons i path ih =>
    cases hcontent : v.content with
    | scalar s => simp [v.paths_of_scalar hcontent, at?, hcontent]
    | list items =>
      simp only [v.paths_of_list hcontent, mem_pathsEach, at?, hcontent, Option.bind_eq_some_iff]
      constructor
      · rintro ⟨j, u, rest, hu, hrest, hpath⟩
        obtain ⟨rfl, rfl⟩ : i = 0 + j ∧ path = rest := List.cons.inj hpath
        obtain ⟨w, hw, hlist⟩ := (ih u).1 hrest
        exact ⟨w, ⟨u, by simpa using hu, hw⟩, hlist⟩
      · rintro ⟨w, ⟨u, hu, hw⟩, hlist⟩
        exact ⟨i, u, path, hu, (ih u).2 ⟨w, hw, hlist⟩, by rw [Nat.zero_add]⟩

mutual

theorem paths_pairwise_lt (v : Value) : v.paths.Pairwise (· < ·) := by
  cases v with
  | scalar s => exact List.pairwise_singleton _ _
  | list items => exact pathsEach_pairwise_lt 0 items
  | named subject label => exact subject.paths_pairwise_lt
  | quoted subject opening closing => exact subject.paths_pairwise_lt

theorem pathsEach_pairwise_lt (i : Nat) (vs : List Value) :
    (pathsEach i vs).Pairwise (· < ·) := by
  cases vs with
  | nil => exact .nil
  | cons v vs =>
    rw [pathsEach, List.pairwise_append, List.pairwise_map]
    refine ⟨v.paths_pairwise_lt.imp fun h => ?_, pathsEach_pairwise_lt (i + 1) vs, ?_⟩
    · exact List.cons_lt_cons_iff.2 (.inr ⟨rfl, h⟩)
    · intro p hp q hq
      obtain ⟨rest, _, rfl⟩ := List.mem_map.1 hp
      obtain ⟨j, w, rest', _, _, rfl⟩ := mem_pathsEach.1 hq
      exact List.cons_lt_cons_iff.2 (.inl (by omega))

end

/-- What the paths lead to is what is found, in the same order; a wrapper takes no part in that. -/
def ListsLeaves (v : Value) : Prop := v.paths.map v.at? = v.leaves.map some

theorem listsLeaves_of_list {v : Value} {items : List Value} (h : v.content = .list items) :
    v.ListsLeaves ↔ (list items).ListsLeaves := by
  have hat : (pathsEach 0 items).map v.at? = (pathsEach 0 items).map (list items).at? := by
    refine List.map_congr_left fun path hpath => ?_
    obtain ⟨j, w, rest, _, _, rfl⟩ := mem_pathsEach.1 hpath
    rw [at?, at?, h]
    rfl
  rw [ListsLeaves, ListsLeaves, v.paths_of_list h, v.leaves_of_list h, hat]
  rfl

theorem listsLeaves_of_scalar {v : Value} {s : Scalar} (h : v.content = .scalar s) :
    v.ListsLeaves := by
  rw [ListsLeaves, v.paths_of_scalar h, v.leaves_of_scalar h]
  rfl

theorem listsLeaves_list {items : List Value} (h : ∀ v ∈ items, v.ListsLeaves) :
    (list items).ListsLeaves := by
  have each : ∀ before vs, before ++ vs = items →
      (pathsEach before.length vs).map (list items).at? = (leavesEach vs).map some := by
    intro before vs
    induction vs generalizing before with
    | nil => exact fun _ => rfl
    | cons v vs ih =>
      intro hitems
      have hv : v ∈ items := by simp [← hitems]
      have hplace : items[before.length]? = some v := by simp [← hitems]
      have hrest := ih (before ++ [v]) (by simpa using hitems)
      have hhere : (v.paths.map (before.length :: ·)).map (list items).at? = v.leaves.map some := by
        rw [← h v hv, List.map_map]
        refine List.map_congr_left fun path _ => ?_
        simp [at?, content, hplace]
      rw [List.length_append, List.length_singleton] at hrest
      rw [pathsEach, leavesEach, List.map_append, List.map_append, hhere, hrest]
  exact each [] items rfl

mutual

theorem listsLeaves (v : Value) : v.ListsLeaves := by
  cases v with
  | scalar s => exact listsLeaves_of_scalar rfl
  | list items => exact listsLeaves_list (listsLeaves_each items)
  | named subject label =>
    cases hcontent : subject.content with
    | scalar s => exact listsLeaves_of_scalar (v := named subject label) hcontent
    | list items =>
      have := (listsLeaves_of_list hcontent).1 subject.listsLeaves
      exact (listsLeaves_of_list (v := named subject label) hcontent).2 this
  | quoted subject opening closing =>
    cases hcontent : subject.content with
    | scalar s => exact listsLeaves_of_scalar (v := quoted subject opening closing) hcontent
    | list items =>
      have := (listsLeaves_of_list hcontent).1 subject.listsLeaves
      exact (listsLeaves_of_list (v := quoted subject opening closing) hcontent).2 this

theorem listsLeaves_each (vs : List Value) : ∀ v ∈ vs, v.ListsLeaves := by
  cases vs with
  | nil => exact List.forall_mem_nil _
  | cons v vs => exact List.forall_mem_cons.2 ⟨v.listsLeaves, listsLeaves_each vs⟩

end

end Paths

theorem weightOf_reverse (vs : List Value) : weightOf vs.reverse = weightOf vs := by
  induction vs with
  | nil => rfl
  | cons v vs ih => simp [weightOf, weightOf_append, ih, Nat.add_comm]

/-- A flattening that is under way: the values still to be looked at, the next one last, and what
has been found so far. -/
structure Flattening where
  pending : List Value
  flat : List Value

namespace Flattening

def start (vs : List Value) : Flattening := ⟨vs.reverse, []⟩

/-- One turn of the loop; where nothing is left to be looked at, all stays as it is. -/
def step (f : Flattening) : Flattening :=
  match f.pending.getLast? with
  | none => f
  | some v =>
    if v.isList then ⟨f.pending.dropLast ++ v.items.reverse, f.flat⟩
    else ⟨f.pending.dropLast, f.flat ++ [v]⟩

def whole (f : Flattening) : List Value := f.flat ++ leavesEach f.pending.reverse

theorem step_list {f : Flattening} {rest : List Value} {v : Value} {items : List Value}
    (hpending : f.pending = rest ++ [v]) (hcontent : v.content = .list items) :
    f.step = ⟨rest ++ items.reverse, f.flat⟩ := by
  rw [step, hpending, List.getLast?_concat, List.dropLast_concat]
  simp [isList_of_list hcontent, items_of_list hcontent]

theorem step_scalar {f : Flattening} {rest : List Value} {v : Value} {s : Scalar}
    (hpending : f.pending = rest ++ [v]) (hcontent : v.content = .scalar s) :
    f.step = ⟨rest, f.flat ++ [v]⟩ := by
  rw [step, hpending, List.getLast?_concat, List.dropLast_concat]
  simp [isList_of_scalar hcontent]

/-- A turn of the loop moves values around, and none of them is lost. -/
theorem whole_step (f : Flattening) : f.step.whole = f.whole := by
  rcases List.eq_nil_or_concat' f.pending with hnil | ⟨rest, v, hpending⟩
  · rw [step, hnil, List.getLast?_nil]
  · cases hcontent : v.content with
    | list items =>
      simp [step_list hpending hcontent, whole, hpending, leavesEach, leavesEach_append,
        v.leaves_of_list hcontent]
    | scalar s =>
      simp [step_scalar hpending hcontent, whole, hpending, leavesEach, v.leaves_of_scalar hcontent]

/-- The stack may get longer, but what it holds gets less. -/
theorem weightOf_step_lt {f : Flattening} (h : f.pending ≠ []) :
    weightOf f.step.pending < weightOf f.pending := by
  obtain hnil | ⟨rest, v, hpending⟩ := List.eq_nil_or_concat' f.pending
  · exact absurd hnil h
  · rw [hpending, weightOf_append]
    cases hcontent : v.content with
    | list items =>
      have := weightOf_content_lt hcontent
      simp only [step_list hpending hcontent, weightOf_append, weightOf_reverse, weightOf]
      omega
    | scalar s =>
      have := v.weight_pos
      simp only [step_scalar hpending hcontent, weightOf]
      omega

/-- The loop ends, with the whole of what there was to be found when it began. -/
theorem exists_iterate_step (f : Flattening) :
    ∃ n ≤ weightOf f.pending, step^[n] f = ⟨[], f.whole⟩ := by
  generalize hweight : weightOf f.pending = weight
  induction weight using Nat.strongRecOn generalizing f with
  | _ weight ih =>
    by_cases hpending : f.pending = []
    · exact ⟨0, Nat.zero_le _, by cases f; simp_all [whole, leavesEach]⟩
    · have hlt := weightOf_step_lt hpending
      obtain ⟨n, hn, hrun⟩ := ih _ (hweight ▸ hlt) f.step rfl
      exact ⟨n + 1, by omega, by rw [Function.iterate_succ_apply, hrun, whole_step]⟩

end Flattening

/-- Flattening by a stack of pending values comes to an end and gives what the recursion over the
values does: those that are no lists, each with its own wrappers, in the order of the paths that
lead to them, one for each path. -/
theorem flatten_depth_first (vs : List Value) :
    (∃ n ≤ weightOf vs, Flattening.step^[n] (.start vs) = ⟨[], flatten vs⟩) ∧
      flatten vs = leavesEach vs ∧
      ∃ paths : List (List Nat), paths.Pairwise (· < ·) ∧
        (∀ path, path ∈ paths ↔ ∃ v, (list vs).at? path = some v ∧ v.isList = false) ∧
        paths.map (list vs).at? = (flatten vs).map some := by
  refine ⟨?_, flatten_eq_leavesEach vs, (list vs).paths, paths_pairwise_lt _, mem_paths_iff _, ?_⟩
  · have hrun := (Flattening.start vs).exists_iterate_step
    rwa [Flattening.whole, Flattening.start, List.reverse_reverse, List.nil_append,
      ← flatten_eq_leavesEach, weightOf_reverse] at hrun
  · rw [flatten_eq_leavesEach]
    exact (list vs).listsLeaves

end Value

end FormulaEngine
