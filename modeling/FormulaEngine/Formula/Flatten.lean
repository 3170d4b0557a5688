import FormulaEngine.Value.Basic

/-!
# Flattening

Nested lists are expanded in place. The values still to be looked at are kept in one list: a list
at its head is replaced by its elements.
-/
namespace FormulaEngine.Value

mutual

def weight : Value → Nat
  | scalar _ => 1
  | list items => 1 + weightOf items
  | named subject _ => 1 + subject.weight
  | quoted subject _ _ => 1 + subject.weight

def weightOf : List Value → Nat
  | [] => 0
  | v :: vs => v.weight + weightOf vs

end

theorem weight_pos (v : Value) : 0 < v.weight := by
  cases v <;> simp only [weight] <;> omega

theorem weightOf_append (vs ws : List Value) : weightOf (vs ++ ws) = weightOf vs + weightOf ws := by
  induction vs with
  | nil => simp [weightOf]
  | cons v vs ih => simp [weightOf, ih]; omega

theorem weightOf_content_lt {v : Value} {items : List Value} (h : v.content = .list items) :
    weightOf items < v.weight := by
  induction v using Value.rec (motive_2 := fun _ => True) with
  | scalar s => cases h
  | list vs =>
    simp only [content, Content.list.injEq] at h
    subst h
    simp [weight]
  | named subject label ih => have := ih h; simp only [weight]; omega
  | quoted subject opening closing ih => have := ih h; simp only [weight]; omega
  | nil => trivial
  | cons => trivial

/-- The values that are no lists, in order and with their wrappers. -/
def flatten : List Value → List Value
  | [] => []
  | v :: vs =>
    match _listed : v.content with
    | .list items => flatten (items ++ vs)
    | .scalar _ => v :: flatten vs
termination_by vs => weightOf vs
decreasing_by
  · have := weightOf_content_lt _listed
    simp only [weightOf, weightOf_append]
    omega
  · have := weight_pos v
    simp only [weightOf]
    omega

end FormulaEngine.Value
