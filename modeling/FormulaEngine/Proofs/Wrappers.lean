import FormulaEngine.Value.Equality

/-!
# Wrappers

Labels and quotation marks are kept with a value and change nothing else about it. A value can be
stripped of them, around it and around everything in it, and it is read and compared as before.
-/
namespace FormulaEngine

namespace Value

/-- The outer wrappers are looked through where a scalar is asked for. -/
theorem latest_inner : (v : Value) → v.inner.latest = v.latest
  | scalar _ => rfl
  | list _ => rfl
  | named subject _ => subject.latest_inner
  | quoted subject _ _ => subject.latest_inner

theorem equals_inner : (v w : Value) → v.inner.equals w = v.equals w
  | scalar _, _ => rfl
  | list _, _ => rfl
  | named subject _, w => subject.equals_inner w
  | quoted subject _ _, w => subject.equals_inner w

mutual

/-- The value without wrappers, in which also the elements of lists have none. -/
def strip : Value → Value
  | scalar s => .scalar s
  | list items => .list (stripEach items)
  | named subject _ => subject.strip
  | quoted subject _ _ => subject.strip

def stripEach : List Value → List Value
  | [] => []
  | v :: vs => v.strip :: stripEach vs

end

def Content.strip : Content → Content
  | .scalar s => .scalar s
  | .list items => .list (stripEach items)

theorem stripEach_eq_map (vs : List Value) : stripEach vs = vs.map strip := by
  induction vs with
  | nil => rfl
  | cons v vs ih => rw [stripEach, ih, List.map_cons]

@[simp] theorem isEmpty_stripEach (vs : List Value) : (stripEach vs).isEmpty = vs.isEmpty := by
  cases vs <;> rfl

@[simp] theorem content_strip (v : Value) : v.strip.content = v.content.strip :=
  match v with
  | scalar _ => rfl
  | list _ => rfl
  | named subject _ => subject.content_strip
  | quoted subject _ _ => subject.content_strip

mutual

@[simp] theorem latest_strip : (v : Value) → v.strip.latest = v.latest
  | scalar _ => rfl
  | list items => latestOf_stripEach items
  | named subject _ => subject.latest_strip
  | quoted subject _ _ => subject.latest_strip

theorem latestOf_stripEach : (vs : List Value) → latestOf (stripEach vs) = latestOf vs
  | [] => rfl
  | [v] => v.latest_strip
  | _ :: v :: vs => latestOf_stripEach (v :: vs)

end

variable (v w : Value)

@[simp] theorem plainInteger?_strip : v.strip.plainInteger? = v.plainInteger? := by
  rw [plainInteger?, plainInteger?, latest_strip]

@[simp] theorem decimal?_strip : v.strip.decimal? = v.decimal? := by
  rw [decimal?, decimal?, latest_strip]

@[simp] theorem integer?_strip : v.strip.integer? = v.integer? := by
  rw [integer?, integer?, latest_strip]

@[simp] theorem truth_strip : v.strip.truth = v.truth := by
  rw [truth, truth, latest_strip]

@[simp] theorem display_strip : v.strip.display = v.display := by
  rw [display, display, latest_strip]

@[simp] theorem isNull_strip : v.strip.isNull = v.isNull := by
  simp only [isNull, content_strip]
  cases v.content <;> rfl

@[simp] theorem isNaN_strip : v.strip.isNaN = v.isNaN := by
  simp only [isNaN, content_strip]
  cases v.content <;> rfl

@[simp] theorem isList_strip : v.strip.isList = v.isList := by
  simp only [isList, content_strip]
  cases v.content <;> rfl

@[simp] theorem hasValue_strip : v.strip.hasValue = v.hasValue := by
  simp only [hasValue, content_strip]
  cases v.content with
  | scalar s => rfl
  | list items => simp [Content.strip]

/-- The elements of a stripped value are stripped, and a value that is no list is its own one. -/
theorem items_strip : v.strip.items = v.items.map strip := by
  simp only [items, content_strip]
  cases v.content with
  | scalar s => rfl
  | list items => exact stripEach_eq_map items

end Value

/-- Only a roll looks at more than the views of the other side. -/
theorem Scalar.matches_strip (s : Scalar) (w : Value) : s.matches w.strip = s.matches w := by
  cases s with
  | roll count sides =>
    simp only [Scalar.matches, Value.content_strip, Value.decimal?_strip]
    cases w.content <;> rfl
  | _ => simp [Scalar.matches]

@[simp] theorem Scalar.equals_strip (s : Scalar) (w : Value) : s.equals w.strip = s.equals w := by
  simp [equals, matches_strip]

namespace Value

mutual

theorem equals_strip_right : (v w : Value) → v.equals w.strip = v.equals w
  | scalar s, w => s.equals_strip w
  | list vs, w => by
    rw [equals, equals, content_strip]
    cases w.content with
    | scalar s => rw [Content.strip, isNull_strip, equalsLast_strip_right vs w]
    | list ws => exact equalsEach_strip_right vs ws
  | named subject _, w => subject.equals_strip_right w
  | quoted subject _ _, w => subject.equals_strip_right w

theorem equalsEach_strip_right :
    (vs ws : List Value) → equalsEach vs (stripEach ws) = equalsEach vs ws
  | [], [] => rfl
  | [], _ :: _ => rfl
  | _ :: _, [] => rfl
  | v :: vs, w :: ws => by
    rw [stripEach, equalsEach, equalsEach, v.equals_strip_right w, equalsEach_strip_right vs ws]

theorem equalsLast_strip_right :
    (vs : List Value) → (w : Value) → equalsLast vs w.strip = equalsLast vs w
  | [], _ => rfl
  | [v], w => v.equals_strip_right w
  | _ :: v :: vs, w => equalsLast_strip_right (v :: vs) w

end

mutual

theorem equals_strip_left : (v w : Value) → v.strip.equals w = v.equals w
  | scalar _, _ => rfl
  | list vs, w => by
    rw [strip, equals, equals]
    cases w.content with
    | scalar s => simp only [equalsLast_strip_left vs w]
    | list ws => exact equalsEach_strip_left vs ws
  | named subject _, w => subject.equals_strip_left w
  | quoted subject _ _, w => subject.equals_strip_left w

theorem equalsEach_strip_left :
    (vs ws : List Value) → equalsEach (stripEach vs) ws = equalsEach vs ws
  | [], _ => rfl
  | _ :: _, [] => rfl
  | v :: vs, w :: ws => by
    rw [stripEach, equalsEach, equalsEach, v.equals_strip_left w, equalsEach_strip_left vs ws]

theorem equalsLast_strip_left :
    (vs : List Value) → (w : Value) → equalsLast (stripEach vs) w = equalsLast vs w
  | [], _ => rfl
  | [v], w => v.equals_strip_left w
  | _ :: v :: vs, w => equalsLast_strip_left (v :: vs) w

end

/-- Labels and quotation marks never affect what a value is: all views of it are those of the
stripped value, it is equal to what the stripped values are equal to, and its elements are those of
the stripped value but for their own wrappers. -/
theorem wrappers_never_matter (v w : Value) :
    (v.strip.display = v.display ∧ v.strip.plainInteger? = v.plainInteger? ∧
      v.strip.decimal? = v.decimal? ∧ v.strip.integer? = v.integer? ∧
      v.strip.truth = v.truth ∧ v.strip.isNull = v.isNull ∧ v.strip.isNaN = v.isNaN ∧
      v.strip.isList = v.isList ∧ v.strip.hasValue = v.hasValue) ∧
    v.strip.equals w.strip = v.equals w ∧ v.strip.items = v.items.map strip := by
  refine ⟨by simp, ?_, v.items_strip⟩
  rw [v.equals_strip_left, v.equals_strip_right]

end Value

end FormulaEngine
