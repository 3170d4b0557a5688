import FormulaEngine.Proofs.Folding

/-!
# Regrouping

The normal form of a tree: folded, and with sums and products grouped to the left wherever that
needs no brackets.
-/
namespace FormulaEngine

open Formula

namespace Formula.BinaryOperator

/-- An operand on the right with this second operator at its root is grouped to the left. -/
def regroups : BinaryOperator → BinaryOperator → Bool
  | add, add => true
  | add, subtract => true
  | multiply, multiply => true
  | multiply, divide => true
  | _, _ => false

variable {a b c : BinaryOperator}

theorem regroups_congr (h : b.regroups c = true) : a.regroups b = a.regroups c := by
  cases b <;> cases c <;> first | contradiction | (cases a <;> rfl)

end Formula.BinaryOperator

namespace Tree

/-- `x` and the tree with the operator between them, grouped to the left along the left spine of
the tree: `x+(y+z)` is `(x+y)+z`, and `x*(y/z)` is `(x*y)/z`. -/
def regroup (op : BinaryOperator) (x : Tree) : Tree → Tree
  | infixed op' y z =>
    if op.regroups op' then infixed op' (regroup op x y) z else infixed op x (infixed op' y z)
  | t => infixed op x t

def normal : Tree → Tree := rebuild regroup

mutual

def regrouped : Tree → Tree
  | literal l => literal l
  | reference r => reference r
  | prefixed op operand => prefixed op operand.regrouped
  | infixed op left right => regroup op left.regrouped right.regrouped
  | call f arguments => call f (regroupedAll arguments)
  | annotated subject label => annotated subject.regrouped label

def regroupedAll : List Tree → List Tree
  | [] => []
  | t :: ts => t.regrouped :: regroupedAll ts

end

theorem regroupedAll_eq_map (ts : List Tree) : regroupedAll ts = ts.map regrouped := by
  induction ts with
  | nil => rfl
  | cons t ts ih => rw [regroupedAll, ih, List.map_cons]

theorem exists_regroup (op : BinaryOperator) (x t : Tree) :
    ∃ op' y z, regroup op x t = infixed op' y z ∧ (op' = op ∨ op.regroups op' = true) := by
  cases t with
  | infixed op' y z =>
    rw [regroup]
    split
    · rename_i h
      exact ⟨op', _, _, rfl, .inr h⟩
    · exact ⟨op, _, _, rfl, .inl rfl⟩
  | _ => exact ⟨op, _, _, rfl, .inl rfl⟩

theorem kept_regrouped (absorbing : Bool) (t : Tree) :
    kept absorbing t.regrouped = (kept absorbing t).map (List.map regrouped) := by
  cases t with
  | literal l =>
    cases l with
    | boolean b => by_cases h : b = absorbing <;> simp [regrouped, kept, h]
    | _ => rfl
  | infixed op left right =>
    obtain ⟨op', y, z, h, _⟩ := exists_regroup op left.regrouped right.regrouped
    simp [regrouped, kept, h]
  | call f nested =>
    by_cases h : f.absorbing? = some absorbing <;>
      simp [regrouped, kept, h, regroupedAll_eq_map]
  | _ => rfl

theorem keep_regrouped (absorbing : Bool) (ts : List Tree) :
    keep absorbing (ts.map regrouped) = (keep absorbing ts).map (List.map regrouped) := by
  induction ts with
  | nil => rfl
  | cons t ts ih =>
    rw [List.map_cons, keep, keep, ih, kept_regrouped]
    cases kept absorbing t with
    | none => rfl
    | some now => cases keep absorbing ts <;> simp

theorem regrouped_fold (absorbing : Bool) (ts : List Tree) :
    (fold absorbing ts).regrouped = fold absorbing (ts.map regrouped) := by
  rw [fold, fold, keep_regrouped]
  rcases keep absorbing ts with _ | (_ | ⟨t, _ | ⟨u, us⟩⟩)
  · rfl
  · rfl
  · rfl
  · simp [regrouped, regroupedAll_eq_map]

mutual

/-- The normal form is the folded tree regrouped. -/
theorem normal_eq_regrouped (t : Tree) : t.normal = t.folded.regrouped := by
  cases t with
  | literal l => rfl
  | reference r => rfl
  | prefixed op operand =>
    have hoperand := operand.normal_eq_regrouped
    simp only [normal, folded] at hoperand
    simp only [normal, folded, rebuild, regrouped, hoperand]
  | infixed op left right =>
    have hleft := left.normal_eq_regrouped
    have hright := right.normal_eq_regrouped
    simp only [normal, folded] at hleft hright
    simp only [normal, folded, rebuild, hleft, hright]
    cases op.absorbing? with
    | none => rfl
    | some absorbing => exact (regrouped_fold absorbing [_, _]).symm
  | call f arguments =>
    have harguments := rebuildAll_regroup arguments
    simp only [normal, folded, rebuild, harguments]
    cases f.absorbing? with
    | none => rfl
    | some absorbing =>
      simp only [regroupedAll_eq_map]
      exact (regrouped_fold absorbing _).symm
  | annotated subject label =>
    have hsubject := subject.normal_eq_regrouped
    simp only [normal, folded] at hsubject
    simp only [normal, folded, rebuild, regrouped, hsubject]

theorem rebuildAll_regroup (ts : List Tree) :
    rebuildAll regroup ts = regroupedAll (rebuildAll infixed ts) := by
  cases ts with
  | nil => rfl
  | cons t ts =>
    have ht := t.normal_eq_regrouped
    have hts := rebuildAll_regroup ts
    simp only [normal, folded] at ht
    simp only [rebuildAll, regroupedAll, ht, hts]

end

/-- The code of a tree with the sign of an operator put where the operator is regrouped to. -/
def codeWith (op : BinaryOperator) : Tree → List Code
  | infixed op' y z =>
    if op.regroups op' then y.codeWith op ++ z.code ++ [.sign (.between op')]
    else (infixed op' y z).code ++ [.sign (.between op)]
  | t => t.code ++ [.sign (.between op)]

theorem code_regroup (op : BinaryOperator) (x t : Tree) :
    (regroup op x t).code = x.code ++ t.codeWith op := by
  match t with
  | infixed op' y z =>
    have ih := code_regroup op x y
    rw [regroup, codeWith]
    split
    · simp [code, ih]
    · simp [code]
  | literal l => simp [regroup, code, codeWith]
  | reference r => simp [regroup, code, codeWith]
  | prefixed op' operand => simp [regroup, code, codeWith]
  | call f arguments => simp [regroup, code, codeWith]
  | annotated subject label => simp [regroup, code, codeWith]

theorem codeWith_regroup {op op' : BinaryOperator} (h : op.regroups op' = true) (x t : Tree) :
    (regroup op' x t).codeWith op = x.codeWith op ++ t.codeWith op' := by
  match t with
  | infixed op'' y z =>
    have ih := codeWith_regroup h x y
    by_cases h' : op'.regroups op'' = true
    · have hpast : op.regroups op'' = true := (BinaryOperator.regroups_congr h').symm.trans h
      simp [regroup, codeWith, h', hpast, ih]
    · simp [regroup, codeWith, h, h', code]
  | literal l => simp [regroup, codeWith, h, code]
  | reference r => simp [regroup, codeWith, h, code]
  | prefixed op'' operand => simp [regroup, codeWith, h, code]
  | call f arguments => simp [regroup, codeWith, h, code]
  | annotated subject label => simp [regroup, codeWith, h, code]

def regroupsUnder (op : BinaryOperator) (t : Tree) : Bool :=
  match t.root? with
  | some (.between op') => op.regroups op'
  | _ => false

theorem codeWith_of_not_regroupsUnder {op : BinaryOperator} {t : Tree}
    (h : t.regroupsUnder op = false) : t.codeWith op = t.code ++ [.sign (.between op)] := by
  cases t with
  | infixed op' y z =>
    have hop : op.regroups op' = false := h
    simp [codeWith, hop]
  | _ => rfl

theorem regroupsUnder_regrouped (op : BinaryOperator) (t : Tree) :
    t.regrouped.regroupsUnder op = t.regroupsUnder op := by
  cases t with
  | infixed op' left right =>
    obtain ⟨root, y, z, h, hroot⟩ := exists_regroup op' left.regrouped right.regrouped
    rw [regrouped, h]
    change op.regroups root = op.regroups op'
    rcases hroot with rfl | hroot
    · rfl
    · exact (BinaryOperator.regroups_congr hroot).symm
  | _ => rfl

end Tree

end FormulaEngine
