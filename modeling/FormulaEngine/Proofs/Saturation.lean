import FormulaEngine.Proofs.Bracketing
import FormulaEngine.Proofs.Invariants

/-!
# Saturation

Trees where every function has the number of arguments that it takes. The trees of formulas are of
that kind, and the code of such a tree comes to its value under every interpretation of the words.
-/
namespace FormulaEngine

open Formula

def Callee.takes : Callee → Nat → Prop
  | one _, n => n = 1
  | three _, n => n = 3
  | many _, _ => True

namespace Tree

mutual

def Everywhere (ops : BinaryOperator → Prop) (calls : Callee → List Tree → Prop) : Tree → Prop
  | literal _ => True
  | reference _ => True
  | prefixed _ operand => operand.Everywhere ops calls
  | infixed op left right => ops op ∧ left.Everywhere ops calls ∧ right.Everywhere ops calls
  | call f arguments => calls f arguments ∧ EverywhereAll ops calls arguments
  | annotated subject _ => subject.Everywhere ops calls

def EverywhereAll (ops : BinaryOperator → Prop) (calls : Callee → List Tree → Prop) :
    List Tree → Prop
  | [] => True
  | t :: ts => t.Everywhere ops calls ∧ EverywhereAll ops calls ts

end

theorem everywhereAll_iff {ops : BinaryOperator → Prop} {calls : Callee → List Tree → Prop}
    {ts : List Tree} : EverywhereAll ops calls ts ↔ ∀ t ∈ ts, t.Everywhere ops calls := by
  induction ts with
  | nil => simp [EverywhereAll]
  | cons t ts ih => simp [EverywhereAll, ih]

/-- Every function has the number of arguments that it takes. -/
def Saturated : Tree → Prop := Everywhere (fun _ => True) fun f ts => f.takes ts.length

def AllSaturated : List Tree → Prop := EverywhereAll (fun _ => True) fun f ts => f.takes ts.length

section Values

variable {V : Type} [Operand V] (i : Interpretation V)

omit [Operand V] in
theorem saturated_toPrimary {x : Expression (some (i.binaryOperator .list))} (h : x.Saturated) :
    x.toPrimary.Saturated := by
  cases x <;> exact h

theorem value_toPrimary (lookup : Reference → Outcome V)
    (x : Expression (some (i.binaryOperator .list))) :
    x.toPrimary.value lookup = x.value lookup := by
  cases x <;> rfl

mutual

/-- The tree as an expression, with brackets only around the subjects of comments. -/
def unbracketed : Tree → Expression (some (i.binaryOperator .list))
  | literal l => .primary (.term (l.value i))
  | reference r => .primary (.reference r)
  | prefixed op operand => .prefixed (op.prefixSign i) operand.unbracketed
  | infixed op left right => .infixed (op.infixSign i) left.unbracketed right.unbracketed
  | call f arguments => .primary (.call (f.symbol i) (unbracketedAll arguments))
  | annotated subject label => .primary (.annotated subject.unbracketed.toPrimary label)

def unbracketedAll : List Tree → List (Expression (some (i.binaryOperator .list)))
  | [] => []
  | t :: ts => t.unbracketed :: unbracketedAll ts

end

theorem length_unbracketedAll (ts : List Tree) : (unbracketedAll i ts).length = ts.length := by
  induction ts with
  | nil => rfl
  | cons t ts ih => rw [unbracketedAll, List.length_cons, ih, List.length_cons]

mutual

theorem postorder_unbracketed (t : Tree) :
    (t.unbracketed i).postorder = instructions i t.code := by
  cases t with
  | literal l => rfl
  | reference r => rfl
  | prefixed op operand => exact postorder_prefixed i operand.postorder_unbracketed op
  | infixed op left right =>
    exact postorder_infixed i left.postorder_unbracketed right.postorder_unbracketed op
  | call f arguments =>
    have harguments := postorder_unbracketedAll arguments
    exact postorder_call i harguments (length_unbracketedAll i arguments) f
  | annotated subject label =>
    have hsubject := (subject.unbracketed i).postorder_toPrimary.trans subject.postorder_unbracketed
    exact postorder_annotated i hsubject label

theorem postorder_unbracketedAll (ts : List Tree) :
    argumentsPostorder (unbracketedAll i ts) = instructions i (codeAll ts) := by
  cases ts with
  | nil => rfl
  | cons t ts =>
    rw [unbracketedAll, argumentsPostorder, t.postorder_unbracketed, postorder_unbracketedAll,
      codeAll, instructions_append]

end

omit [Operand V] in
theorem takes_symbol {f : Callee} {n : Nat} (h : f.takes n) :
    (f.symbol i).operation.Takes n := by
  intro arity harity
  cases f with
  | one f => exact h.trans (Option.some.inj harity)
  | three f => exact h.trans (Option.some.inj harity)
  | many f => cases harity

mutual

theorem saturated_unbracketed (t : Tree) (h : t.Saturated) : (t.unbracketed i).Saturated := by
  cases t with
  | literal l => trivial
  | reference r => trivial
  | prefixed op operand => exact operand.saturated_unbracketed h
  | infixed op left right =>
    refine ⟨?_, left.saturated_unbracketed h.2.1, right.saturated_unbracketed h.2.2⟩
    rw [op_infixSign]
    rfl
  | call f arguments =>
    refine ⟨?_, saturated_unbracketedAll arguments h.2⟩
    rw [length_unbracketedAll]
    exact takes_symbol i h.1
  | annotated subject label =>
    exact saturated_toPrimary i (subject.saturated_unbracketed h)

theorem saturated_unbracketedAll (ts : List Tree) (h : AllSaturated ts) :
    ArgumentsSaturated (unbracketedAll i ts) := by
  cases ts with
  | nil => trivial
  | cons t ts => exact ⟨t.saturated_unbracketed h.1, saturated_unbracketedAll ts h.2⟩

end

theorem evaluate_instructions {t : Tree} (h : t.Saturated) {scope : Resolver V}
    {lookup : Reference → Outcome V} (resolves : Resolves scope lookup (instructions i t.code))
    (deeper : List (Resolver V)) (text : String) :
    (Program.mk (instructions i t.code) text).evaluate (scope :: deeper) =
      (t.unbracketed i).value lookup := by
  rw [← postorder_unbracketed] at resolves ⊢
  exact Expression.evaluate_eq_value (t.saturated_unbracketed i h) resolves deeper text

/-- Nothing fails, and the value of every tree is made from those of its parts. -/
structure Values (lookup : Reference → Outcome V) (f : Tree → V) : Prop where
  literal (l : Literal) : l.value i = f (.literal l)
  reference (r : Reference) : lookup r = .ok (f (.reference r))
  prefixed (op : UnaryOperator) (t : Tree) : i.unary op (f t) = .ok (f (.prefixed op t))
  infixed (op : BinaryOperator) (left right : Tree) :
    i.binary op (f left) (f right) = .ok (f (.infixed op left right))
  call {g : Callee} {ts : List Tree} (takes : g.takes ts.length) :
    (g.symbol i).operation.apply (ts.map f) = .ok (f (.call g ts))
  annotated (t : Tree) (label : String) : Operand.annotate (f t) label = f (.annotated t label)

namespace Values

variable {i} {lookup : Reference → Outcome V} {f : Tree → V}

mutual

theorem value_eq (values : Values i lookup f) (t : Tree) (h : t.Saturated) :
    (t.unbracketed i).value lookup = .ok (f t) := by
  cases t with
  | literal l => exact congrArg _ (values.literal l)
  | reference r => exact values.reference r
  | prefixed op operand =>
    rw [unbracketed, Expression.value, values.value_eq operand h, op_prefixSign, ok_bind]
    exact values.prefixed op operand
  | infixed op left right =>
    rw [unbracketed, Expression.value, values.value_eq left h.2.1, values.value_eq right h.2.2,
      op_infixSign, ok_bind, ok_bind]
    exact values.infixed op left right
  | call g ts =>
    rw [unbracketed, Expression.value, Primary.value, values.argumentValues_eq ts h.2, ok_bind]
    exact values.call h.1
  | annotated subject label =>
    rw [unbracketed, Expression.value, Primary.value, value_toPrimary,
      values.value_eq subject h, ← values.annotated]
    rfl

theorem argumentValues_eq (values : Values i lookup f) (ts : List Tree) (h : AllSaturated ts) :
    argumentValues lookup (unbracketedAll i ts) = .ok (ts.map f) := by
  cases ts with
  | nil => rfl
  | cons t ts =>
    rw [unbracketedAll, argumentValues, values.value_eq t h.1, values.argumentValues_eq ts h.2]
    rfl

end

end Values

theorem values_symbol :
    Values Symbol.writing (fun r => .ok (.atom (r.opening ++ r.key ++ r.closing))) symbol where
  literal _ := rfl
  reference _ := rfl
  prefixed _ _ := rfl
  infixed _ _ _ := rfl
  call {g ts} takes := by
    cases g with
    | one g =>
      match ts, takes with
      | [a], _ => rfl
    | three g =>
      match ts, takes with
      | [a, b, c], _ => rfl
    | many g => rw [symbol, symbols_eq_map]; rfl
  annotated _ _ := rfl

theorem values_building : Values building (fun r => .ok (.reference r)) id where
  literal l := by cases l <;> rfl
  reference _ := rfl
  prefixed _ _ := rfl
  infixed _ _ _ := rfl
  call {g ts} takes := by
    cases g with
    | one g =>
      match ts, takes with
      | [a], _ => rfl
    | three g =>
      match ts, takes with
      | [a, b, c], _ => rfl
    | many g => rw [List.map_id]; rfl
  annotated _ _ := rfl

theorem evaluate_code {t : Tree} (h : t.Saturated) (text : String) :
    (Program.mk (instructions Symbol.writing t.code) text).evaluate [Symbol.resolver] =
      .ok t.symbol :=
  (evaluate_instructions Symbol.writing h (fun _ _ => rfl) [] text).trans
    (values_symbol.value_eq t h)

/-- The code of a tree builds the tree again. -/
theorem evaluate_building {t : Tree} (h : t.Saturated) (text : String) :
    (Program.mk (instructions building t.code) text).evaluate [resolver] = .ok t :=
  (evaluate_instructions building h (fun _ _ => rfl) [] text).trans (values_building.value_eq t h)

end Values

section Building

theorem keeps_saturated (c : Code) : (c.instruction building).Keeps Saturated := by
  cases c with
  | literal l => cases l <;> trivial
  | reference r => trivial
  | arity n => trivial
  | comment label => exact fun _ ht => ht
  | sign g =>
    cases g with
    | before op =>
      refine .unary fun t ht _ h => ?_
      cases h
      exact ht
    | between op =>
      refine .binary fun left right hleft hright _ h => ?_
      cases h
      exact ⟨trivial, hleft, hright⟩
  | callee f =>
    cases f with
    | one f =>
      refine .unary fun t ht _ h => ?_
      cases h
      exact ⟨rfl, ht, trivial⟩
    | three f =>
      refine .ternary fun t t' t'' ht ht' ht'' _ h => ?_
      cases h
      exact ⟨rfl, ht, ht', ht'', trivial⟩
    | many f =>
      refine .variadic fun ts hts _ h => ?_
      cases h
      exact ⟨trivial, everywhereAll_iff.2 hts⟩

theorem saturated_of_evaluate {code : List Code} {text : String} {t : Tree}
    (h : (Program.mk (instructions building code) text).evaluate [resolver] = .ok t) :
    t.Saturated := by
  have hkeeps : (Program.mk (instructions building code) text).Keeps Saturated :=
    List.forall_mem_map.2 fun c _ => keeps_saturated c
  have hresolver : Resolver.Keeps Saturated resolver := ⟨by rintro r v ⟨⟩; trivial, nofun⟩
  exact hkeeps.of_evaluate (List.forall_mem_singleton.2 hresolver) h

end Building

end Tree

end FormulaEngine
