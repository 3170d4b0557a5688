import FormulaEngine.Formula.Flatten
import FormulaEngine.Proofs.LastElements

/-!
# Coverage

The views of a value and equality by cases. A view goes through wrappers and to the last elements of
lists, and has a case for every kind of scalar that it may come to; equality has a list of cases for
pairs, of which the first one that fits applies. No case is meant for a list or a wrapped value that
a view would come to, nor for pairs that earlier cases are to have settled. Still no value and no
pair of values is left out: the cases come to what the views and equality are defined as.
-/
namespace FormulaEngine.Value

variable {v w x e : Value} {vs ws : List Value} {s : Scalar}

section Chains

/-- Through wrappers and from lists to their last elements one comes from the first value to the
second one, and no further. -/
inductive EndsAt : Value → Value → Prop where
  | scalar (s : Scalar) : EndsAt (.scalar s) (.scalar s)
  | empty : EndsAt (.list []) (.list [])
  | last {vs : List Value} {x e : Value} (last : vs.getLast? = some x) (ends : EndsAt x e) :
    EndsAt (.list vs) e
  | named {subject e : Value} (label : String) (ends : EndsAt subject e) :
    EndsAt (.named subject label) e
  | quoted {subject e : Value} (opening closing : String) (ends : EndsAt subject e) :
    EndsAt (.quoted subject opening closing) e

theorem endsAt_inner (v : Value) : v.inner.EndsAt e ↔ v.EndsAt e := by
  cases v with
  | scalar s => exact Iff.rfl
  | list items => exact Iff.rfl
  | named subject label =>
    refine (endsAt_inner subject).trans ⟨.named label, fun h => ?_⟩
    cases h
    assumption
  | quoted subject opening closing =>
    refine (endsAt_inner subject).trans ⟨.quoted opening closing, fun h => ?_⟩
    cases h
    assumption

theorem endsAt_scalar : (scalar s).EndsAt e ↔ e = scalar s := by
  constructor
  · rintro ⟨⟩
    rfl
  · rintro rfl
    exact .scalar s

theorem endsAt_nil : (list []).EndsAt e ↔ e = list [] := by
  constructor
  · intro h
    cases h with
    | empty => rfl
    | last last _ => cases last
  · rintro rfl
    exact .empty

theorem endsAt_list (last : vs.getLast? = some x) : (list vs).EndsAt e ↔ x.EndsAt e := by
  constructor
  · intro h
    cases h with
    | empty => cases last
    | last last' ends =>
      cases last.symm.trans last'
      exact ends
  · exact .last last

end Chains

section Viewing

theorem content_value (c : Content) : c.value.content = c := by
  cases c <;> rfl

theorem content_inner (v : Value) : v.inner.content = v.content := content_value v.content

theorem content_of_inner (listed : v.inner = list vs) : v.content = .list vs := by
  rw [← content_inner, listed]
  rfl

theorem weight_le_weightOf (member : x ∈ vs) : x.weight ≤ weightOf vs := by
  induction vs with
  | nil => cases member
  | cons v vs ih =>
    rw [weightOf]
    rcases List.mem_cons.1 member with rfl | h
    · exact Nat.le_add_right _ _
    · exact Nat.le_add_left_of_le (ih h)

theorem weight_lt_of_last (listed : v.content = .list vs) (last : vs.getLast? = some x) :
    x.weight < v.weight :=
  Nat.lt_of_le_of_lt (weight_le_weightOf (List.mem_of_getLast? last)) (weightOf_content_lt listed)

/-- What a scalar view looks at: what stands inside the wrappers, or, if that is a list, what a view
of its last element looks at. -/
def viewed (v : Value) : Value :=
  match _listed : v.inner with
  | .list vs =>
    match _last : vs.getLast? with
    | some x => x.viewed
    | none => .null
  | w => w
termination_by v.weight
decreasing_by exact weight_lt_of_last (content_of_inner _listed) _last

def view {α : Type} (read : Scalar → α) (v : Value) : Option α :=
  match v.viewed with
  | .scalar s => some (read s)
  | .list _ => none
  | .named _ _ => none
  | .quoted _ _ _ => none

def integerView (v : Value) : Option (Except ResolveError Int64) :=
  match v.viewed with
  | .scalar (.integer n) => some (.ok n)
  | .scalar (.text t) =>
    match Integer.read? (Text.trim t.toList) with
    | some n => some (.ok n)
    | none => (v.view Scalar.decimal?).map (·.map Decimal.toInteger)
  | .scalar .nan => some (.error (.notANumber "NaN"))
  | .scalar (.decimal x) =>
    if x.isNaN then some (.error (.notANumber "NaN"))
    else (v.view Scalar.decimal?).map (·.map Decimal.toInteger)
  | _ => (v.view Scalar.decimal?).map (·.map Decimal.toInteger)

theorem viewed_spec (v : Value) :
    v.viewed = scalar v.latest ∧ ∃ e, (∀ x, v.EndsAt x ↔ x = e) ∧
      (e = scalar v.latest ∨ e = list [] ∧ v.latest = .null) := by
  fun_induction viewed v with
  | case1 v vs listed x last ih =>
    have hlatest : v.latest = x.latest := by
      rw [latest_of_list (content_of_inner listed), latestOf_of_getLast? last]
    obtain ⟨hviewed, e, hends, hend⟩ := ih
    refine ⟨hlatest ▸ hviewed, e, fun y => ?_, hlatest ▸ hend⟩
    rw [← endsAt_inner, listed, endsAt_list last, hends]
  | case2 v vs listed last =>
    obtain rfl := List.getLast?_eq_none_iff.1 last
    have hlatest : v.latest = .null := latest_of_list (content_of_inner listed)
    refine ⟨by rw [hlatest], list [], fun y => ?_, .inr ⟨rfl, hlatest⟩⟩
    rw [← endsAt_inner, listed, endsAt_nil]
  | case3 v unlisted =>
    cases hv : v.content with
    | list items => exact absurd (congrArg Content.value hv) (unlisted items)
    | scalar s =>
      have hinner : v.inner = scalar s := congrArg Content.value hv
      rw [latest_of_scalar hv]
      refine ⟨hinner, scalar s, fun y => ?_, .inl rfl⟩
      rw [← endsAt_inner, hinner, endsAt_scalar]

theorem view_eq {α : Type} (read : Scalar → α) (v : Value) : v.view read = some (read v.latest) := by
  rw [view, v.viewed_spec.1]

theorem integerView_eq (v : Value) : v.integerView = some v.integer? := by
  rw [integerView, v.viewed_spec.1, view_eq, integer?]
  cases v.latest with
  | text t =>
    simp only [Scalar.integer?]
    cases Integer.read? (Text.trim t.toList) <;> rfl
  | decimal x =>
    cases hx : x.isNaN <;> simp only [Scalar.integer?, Scalar.isNaN, hx] <;> rfl
  | _ => rfl

end Viewing

section Comparing

/-- The last cases of equality, which are meant for a scalar on the left-hand side. -/
def matchesByCases (a b : Value) : Option Bool :=
  match a, b with
  | .scalar (.text s), b => (b.view Scalar.display).map (s == ·)
  | .scalar (.integer n), b =>
    b.integerView.map fun
      | .ok m => n == m
      | .error _ => false
  | .scalar (.decimal x), b =>
    (b.view Scalar.decimal?).map fun
      | .ok y => Decimal.isClose x y
      | .error _ => false
  | .scalar (.boolean p), b => (b.view Scalar.truth).map (p == ·)
  | .scalar (.roll count sides), .scalar (.roll count' sides') =>
    some (count == count' && sides == sides')
  | .scalar (.roll count sides), b => do
    match ← (roll count sides).view Scalar.decimal?, ← b.view Scalar.decimal? with
    | .ok x, .ok y => some (Decimal.isClose x y)
    | _, _ => some false
  | _, _ => none

/-- What a case of equality makes of a pair: it is settled, or left to other pairs. -/
inductive Comparison where
  | settled (equal : Bool)
  | each (vs ws : List Value)
  | last (x w : Value)

/-- The cases of equality, of which the first one that fits applies. -/
def comparison? (a b : Value) : Option Comparison :=
  match a, b with
  | .scalar .null, .scalar .null => some (.settled true)
  | .scalar .null, _ => some (.settled false)
  | _, .scalar .null => some (.settled false)
  | a, b =>
    if a.isNaN || b.isNaN then some (.settled false)
    else
      match a, b with
      | .list vs, .list ws =>
        some (if vs.length == ws.length then .each vs ws else .settled false)
      | .list vs, b => some (vs.getLast?.elim (.settled false) (.last · b))
      | a, b => if b.hasValue then (matchesByCases a b).map .settled else some (.settled false)

theorem matchesByCases_scalar (known : s ≠ .null) (number : s.isNaN = false) (c : Content) :
    matchesByCases (scalar s) c.value = some (s.matches c.value) := by
  cases s with
  | text t => rw [matchesByCases, view_eq]; rfl
  | integer n => rw [matchesByCases, integerView_eq]; rfl
  | decimal x => rw [matchesByCases, view_eq]; rfl
  | boolean b => rw [matchesByCases, view_eq]; rfl
  | null => exact absurd rfl known
  | nan => cases number
  | roll count sides =>
    by_cases rolled : ∃ count' sides', c = .scalar (.roll count' sides')
    · obtain ⟨count', sides', rfl⟩ := rolled
      rfl
    · have hreads : (Scalar.roll count sides).matches c.value =
          (Scalar.roll count sides).isNear c.value.latest :=
        Scalar.matches_eq_reads _ _ fun _ _ count' sides' _ hc =>
          rolled ⟨count', sides', (content_value c).symm.trans hc⟩
      rw [hreads, matchesByCases, view_eq, view_eq]
      · simp only [Scalar.isNear]
        cases c.value.latest.decimal? <;> rfl
      · exact fun count' sides' hc =>
          rolled ⟨count', sides', (content_value c).symm.trans (congrArg content hc)⟩

theorem comparison?_scalar (s : Scalar) (c : Content) :
    comparison? (scalar s) c.value = some (.settled (s.equals c.value)) := by
  by_cases known : s = .null
  · subst known
    cases c with
    | list items => rfl
    | scalar t => cases t <;> rfl
  have hleft : scalar s ≠ null := fun h => known (Value.scalar.inj h)
  by_cases present : c.value = null
  · rw [present, comparison?]
    · cases s with
      | null => exact absurd rfl known
      | _ => rfl
    · exact hleft
  · have hnan : (scalar s).isNaN = s.isNaN := rfl
    rw [s.equals_eq known, comparison?, hnan]
    · cases number : s.isNaN with
      | true => rfl
      | false =>
        rw [matchesByCases_scalar known number]
        cases c.value.isNaN <;> cases c.value.hasValue <;> rfl
    all_goals simp [known, present]

theorem strip_inner (v : Value) : v.inner.strip = v.strip := by
  cases v with
  | scalar s => rfl
  | list items => rfl
  | named subject label => exact strip_inner subject
  | quoted subject opening closing => exact strip_inner subject

theorem equals_inner_right (v w : Value) : v.equals w.inner = v.equals w := by
  rw [← equals_strip_right, strip_inner, equals_strip_right]

theorem length_eq_of_equalsEach : {vs ws : List Value} → equalsEach vs ws = true →
    vs.length = ws.length
  | [], [], _ => rfl
  | _ :: _, _ :: _, h => by
    rw [equalsEach, Bool.and_eq_true] at h
    rw [List.length_cons, List.length_cons, length_eq_of_equalsEach h.2]

/-- What equality comes to by a case: the pair is settled, or it is equal as those are that it is left
to. -/
inductive Comparison.Decides (a b : Value) : Comparison → Prop where
  | settled {equal : Bool} (agrees : a.equals b = equal) : Decides a b (.settled equal)
  | each {vs ws : List Value} (listed : a.content = .list vs) (same : vs.length = ws.length)
    (agrees : a.equals b = equalsEach vs ws) : Decides a b (.each vs ws)
  | last {vs : List Value} {x w : Value} (listed : a.content = .list vs)
    (last : vs.getLast? = some x) (agrees : a.equals b = x.equals w) : Decides a b (.last x w)

theorem exists_comparison?_lists (vs ws : List Value) :
    ∃ c, comparison? (list vs) (list ws) = some c ∧ c.Decides (list vs) (list ws) := by
  have hequals : (list vs).equals (list ws) = equalsEach vs ws := rfl
  refine ⟨if vs.length == ws.length then .each vs ws else .settled false, rfl, ?_⟩
  by_cases same : vs.length = ws.length
  · rw [if_pos (beq_iff_eq.2 same)]
    exact .each rfl same hequals
  · rw [if_neg (by simpa using same)]
    refine .settled ?_
    by_contra h
    exact same (length_eq_of_equalsEach (hequals.symm.trans (Bool.not_eq_false _ ▸ h)))

theorem exists_comparison?_list_scalar (vs : List Value) (s : Scalar) :
    ∃ c, comparison? (list vs) (scalar s) = some c ∧ c.Decides (list vs) (scalar s) := by
  have hcase : comparison? (list vs) (scalar s) =
      some (if (scalar s).isNull || s.isNaN then .settled false
        else vs.getLast?.elim (.settled false) (.last · (scalar s))) := by
    cases s with
    | decimal x => exact (apply_ite some _ _ _).symm
    | _ => rfl
  have hequals : (list vs).equals (scalar s) =
      (!((scalar s).isNull || s.isNaN) && equalsLast vs (scalar s)) := by
    rw [Bool.not_or]
    rfl
  refine ⟨_, hcase, ?_⟩
  cases hsettled : ((scalar s).isNull || s.isNaN) with
  | true =>
    rw [hsettled] at hequals
    exact .settled hequals
  | false =>
    rw [hsettled] at hequals
    cases hlast : vs.getLast? with
    | none =>
      obtain rfl := List.getLast?_eq_none_iff.1 hlast
      exact .settled hequals
    | some x => exact .last rfl hlast (hequals.trans (equalsLast_of_getLast? hlast _))

theorem exists_comparison? (v w : Value) :
    ∃ c, comparison? v.inner w.inner = some c ∧ c.Decides v.inner w.inner := by
  rw [inner, inner]
  cases v.content with
  | scalar s => exact ⟨_, comparison?_scalar s w.content, .settled rfl⟩
  | list vs =>
    cases w.content with
    | scalar t => exact exists_comparison?_list_scalar vs t
    | list ws => exact exists_comparison?_lists vs ws

theorem weightOf_lt_of_comparison?_each (h : comparison? v.inner w.inner = some (.each vs ws)) :
    weightOf vs < v.weight := by
  obtain ⟨c, hc, decides⟩ := exists_comparison? v w
  cases hc.symm.trans h
  cases decides with
  | each listed _ _ => exact weightOf_content_lt (content_inner v ▸ listed)

theorem weight_lt_of_comparison?_last (h : comparison? v.inner w.inner = some (.last x e)) :
    x.weight < v.weight := by
  obtain ⟨c, hc, decides⟩ := exists_comparison? v w
  cases hc.symm.trans h
  cases decides with
  | last listed last _ => exact weight_lt_of_last (content_inner v ▸ listed) last

mutual

def equalsByCases (v w : Value) : Option Bool :=
  match _compared : comparison? v.inner w.inner with
  | some (.settled equal) => some equal
  | some (.each vs ws) => equalsEachByCases vs ws
  | some (.last x w) => equalsByCases x w
  | none => none
termination_by 2 * v.weight
decreasing_by
  · have := weightOf_lt_of_comparison?_each _compared
    omega
  · have := weight_lt_of_comparison?_last _compared
    omega

def equalsEachByCases : List Value → List Value → Option Bool
  | v :: vs, w :: ws => do if ← equalsByCases v w then equalsEachByCases vs ws else some false
  | _, _ => some true
termination_by vs => 2 * weightOf vs + 1
decreasing_by
  · simp only [weightOf]
    omega
  · have := v.weight_pos
    simp only [weightOf]
    omega

end

theorem equalsByCases_settled {equal : Bool}
    (h : comparison? v.inner w.inner = some (.settled equal)) :
    v.equalsByCases w = some equal := by
  rw [equalsByCases]
  split <;> simp_all

theorem equalsByCases_each (h : comparison? v.inner w.inner = some (.each vs ws)) :
    v.equalsByCases w = equalsEachByCases vs ws := by
  rw [equalsByCases]
  split <;> simp_all

theorem equalsByCases_last (h : comparison? v.inner w.inner = some (.last x e)) :
    v.equalsByCases w = x.equalsByCases e := by
  rw [equalsByCases]
  split <;> simp_all

theorem equalsEachByCases_eq (each : ∀ v ∈ vs, ∀ w, v.equalsByCases w = some (v.equals w))
    (same : vs.length = ws.length) : equalsEachByCases vs ws = some (equalsEach vs ws) := by
  induction vs generalizing ws with
  | nil =>
    obtain rfl := List.length_eq_zero_iff.1 same.symm
    simp [equalsEachByCases, equalsEach]
  | cons v vs ih =>
    cases ws with
    | nil => cases same
    | cons w ws =>
      obtain ⟨hv, hvs⟩ := List.forall_mem_cons.1 each
      rw [equalsEachByCases, equalsEach, hv w]
      cases v.equals w with
      | false => rfl
      | true => exact ih hvs (Nat.succ.inj same)

/-- By induction on the left-hand side, which is smaller in the pairs that a pair is left to. -/
theorem equalsByCases_eq (v w : Value) : v.equalsByCases w = some (v.equals w) := by
  induction hweight : v.weight using Nat.strongRecOn generalizing v w with
  | _ weight ih =>
    obtain ⟨c, hc, decides⟩ := exists_comparison? v w
    rw [← equals_inner, ← equals_inner_right]
    cases decides with
    | settled agrees => rw [equalsByCases_settled hc, agrees]
    | each listed same agrees =>
      have hlt := weightOf_lt_of_comparison?_each hc
      rw [equalsByCases_each hc, agrees]
      refine equalsEachByCases_eq (fun x hx y => ?_) same
      exact ih _ (hweight ▸ (weight_le_weightOf hx).trans_lt hlt) x y rfl
    | last listed last agrees =>
      rw [equalsByCases_last hc, agrees]
      exact ih _ (hweight ▸ weight_lt_of_comparison?_last hc) _ _ rfl

end Comparing

/-- No view of a value and no comparison runs out of cases. What a scalar view looks at is a scalar:
the one at the end of the chain of wrappers and last elements, or null where an empty list is. So the
views by cases have an answer, the one of the views as they are defined, and equality by cases, which
would have none if any pair that it is left to had no case, has that of equality. -/
theorem views_miss_no_case (v w : Value) :
    (v.viewed = scalar v.latest ∧ ∃ e, (∀ x, v.EndsAt x ↔ x = e) ∧
      (e = scalar v.latest ∨ e = list [] ∧ v.latest = .null)) ∧
    v.view Scalar.display = some v.display ∧ v.view Scalar.decimal? = some v.decimal? ∧
    v.integerView = some v.integer? ∧ v.view Scalar.truth = some v.truth ∧
    v.equalsByCases w = some (v.equals w) :=
  ⟨v.viewed_spec, v.view_eq _, v.view_eq _, v.integerView_eq, v.view_eq _, v.equalsByCases_eq w⟩

end FormulaEngine.Value
