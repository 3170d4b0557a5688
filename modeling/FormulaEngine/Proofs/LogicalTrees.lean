import FormulaEngine.Proofs.Flatness
import FormulaEngine.Proofs.Phrases
import FormulaEngine.Proofs.Slipping

/-!
# Logical trees

Trees of literals and references with negations, conjunctions and disjunctions. Such a tree comes to
a value that is no list, and folding the tree leaves the truth of that value as it is.
-/
namespace FormulaEngine

open Formula

theorem any_truth (vs : List Value) : vs.any Value.truth = junction true (vs.map Value.truth) := by
  induction vs with
  | nil => rfl
  | cons v vs ih => rw [List.any_cons, ih, List.map_cons, junction_cons]; cases v.truth <;> rfl

theorem all_truth (vs : List Value) : vs.all Value.truth = junction false (vs.map Value.truth) := by
  induction vs with
  | nil => rfl
  | cons v vs ih => rw [List.all_cons, ih, List.map_cons, junction_cons]; cases v.truth <;> rfl

theorem Value.flatten_eq_self {vs : List Value} (single : ∀ v ∈ vs, v.isList = false) :
    Value.flatten vs = vs := by
  induction vs with
  | nil => rw [flatten]
  | cons v vs ih =>
    have hv : v.isList = false := single v List.mem_cons_self
    rw [flatten]
    split
    · rename_i items h
      rw [isList, h] at hv
      cases hv
    · rw [ih fun w hw => single w (List.mem_cons_of_mem v hw)]

section Values

variable (strict : Bool) {absorbing : Bool}

theorem isList_literal (l : Literal) : (l.value (arithmetic strict)).isList = false := by
  have hdecimal : ∀ text, (Value.ofDecimalText text).isList = false := by
    intro text
    rw [Value.ofDecimalText]
    split <;> rfl
  cases l with
  | integer text =>
    change (Value.ofIntegerText text).isList = false
    rw [Value.ofIntegerText]
    split
    · rfl
    · exact hdecimal text
  | decimal text => exact hdecimal text
  | _ => rfl

theorem binary_eq_junction {op : BinaryOperator} (joins : op.absorbing? = some absorbing)
    (v w : Value) :
    binary strict op v w = .ok (.boolean (junction absorbing [v.truth, w.truth])) := by
  cases op with
  | both =>
    cases joins
    cases hv : v.truth <;> cases hw : w.truth <;> simp [binary, hv, hw, junction]
  | either =>
    cases joins
    cases hv : v.truth <;> cases hw : w.truth <;> simp [binary, hv, hw, junction]
  | _ => cases joins

theorem apply_eq_junction {f : Callee} (joins : f.absorbing? = some absorbing) {vs : List Value}
    (single : ∀ v ∈ vs, v.isList = false) :
    (f.symbol (arithmetic strict)).operation.apply vs =
      .ok (.boolean (junction absorbing (vs.map Value.truth))) := by
  have hvs := Value.flatten_eq_self single
  cases f with
  | many f =>
    cases f with
    | any =>
      cases joins
      change Except.ok (Value.boolean ((Value.flatten vs).any Value.truth)) = _
      rw [hvs, any_truth]
    | all =>
      cases joins
      change Except.ok (Value.boolean ((Value.flatten vs).all Value.truth)) = _
      rw [hvs, all_truth]
    | _ => cases joins
  | _ => cases joins

end Values

/-- The references are of some kind, and no operator stands between operands but those of
conjunctions and disjunctions. -/
def Code.IsLogical (refs : Reference → Prop) : Code → Prop
  | reference r => refs r
  | sign (.between op) => op.absorbing?.isSome = true
  | _ => True

namespace Tree

section

variable (env : Reference → Value)

mutual

/-- The truth of the tree where references stand for values. -/
def truth : Tree → Bool
  | literal l => (l.value (arithmetic false)).truth
  | reference r => (env r).truth
  | prefixed .not operand => !operand.truth
  | infixed op left right =>
    match op.absorbing? with
    | some absorbing => junction absorbing [left.truth, right.truth]
    | none => false
  | call f arguments =>
    match f.absorbing? with
    | some absorbing => junction absorbing (truths arguments)
    | none => false
  | annotated subject _ => subject.truth
  | _ => false

def truths : List Tree → List Bool
  | [] => []
  | t :: ts => t.truth :: truths ts

end

theorem truths_eq_map (ts : List Tree) : truths env ts = ts.map (truth env) := by
  induction ts with
  | nil => rfl
  | cons t ts ih => rw [truths, ih, List.map_cons]

variable {absorbing : Bool} {t : Tree} {ts us : List Tree}

theorem truth_of_kept_none (h : kept absorbing t = none) : t.truth env = absorbing := by
  cases t with
  | literal l =>
    cases l with
    | boolean b =>
      rw [kept] at h
      split at h
      · rename_i hb
        exact hb
      · cases h
    | _ => cases h
  | call f nested =>
    rw [kept] at h
    split at h <;> cases h
  | _ => cases h

theorem junction_kept (h : kept absorbing t = some us) :
    junction absorbing (us.map (truth env)) = t.truth env := by
  cases t with
  | literal l =>
    cases l with
    | boolean b =>
      rw [kept] at h
      split at h
      · cases h
      · rename_i hb
        cases h
        have hneutral : b = !absorbing := Bool.eq_not_of_ne hb
        exact hneutral.symm
    | _ => cases h; exact junction_singleton _ _
  | call f nested =>
    rw [kept] at h
    split at h
    · rename_i hf
      cases h
      rw [truth, hf, truths_eq_map]
    · cases h
      exact junction_singleton _ _
  | _ => cases h; exact junction_singleton _ _

theorem junction_of_keep_none (h : keep absorbing ts = none) :
    junction absorbing (ts.map (truth env)) = absorbing :=
  (merges absorbing).junction_of_eq_none (fun _ => truth_of_kept_none env) h

theorem junction_keep (h : keep absorbing ts = some us) :
    junction absorbing (us.map (truth env)) = junction absorbing (ts.map (truth env)) :=
  (merges absorbing).junction_of_eq_some (fun _ _ => junction_kept env) h

theorem truth_fold (absorbing : Bool) (ts : List Tree) :
    (fold absorbing ts).truth env = junction absorbing (ts.map (truth env)) := by
  rw [fold]
  split
  · rename_i hkeep
    exact (junction_of_keep_none env hkeep).symm
  · rename_i hkeep
    exact junction_keep env hkeep
  · rename_i t hkeep
    rw [← junction_keep env hkeep]
    exact (junction_singleton _ _).symm
  · rename_i us _ _ hkeep
    rw [← junction_keep env hkeep, truth, truths_eq_map]
    cases absorbing <;> rfl

mutual

/-- The folded tree has the same truth. -/
theorem truth_folded (t : Tree) : t.folded.truth env = t.truth env := by
  cases t with
  | literal l => rfl
  | reference r => rfl
  | prefixed op operand =>
    cases op with
    | negate => rfl
    | not => exact congrArg not operand.truth_folded
  | infixed op left right =>
    have hleft := left.truth_folded
    have hright := right.truth_folded
    simp only [folded, rebuild, truth] at hleft hright ⊢
    cases hop : op.absorbing? with
    | none => simp only [truth, hop]
    | some absorbing =>
      simp only [truth_fold, List.map_cons, List.map_nil, hleft, hright]
  | call f arguments =>
    have harguments := truths_rebuildAll arguments
    simp only [folded, rebuild, truth]
    cases hf : f.absorbing? with
    | none => simp only [truth, hf]
    | some absorbing => simp only [truth_fold, ← truths_eq_map, harguments]
  | annotated subject label => exact subject.truth_folded

theorem truths_rebuildAll (ts : List Tree) :
    truths env (rebuildAll infixed ts) = truths env ts := by
  cases ts with
  | nil => rfl
  | cons t ts =>
    have ht := t.truth_folded
    rw [folded] at ht
    rw [rebuildAll, truths, truths, ht, truths_rebuildAll ts]

end

end

theorem anySlips_eq_false {ts : List Tree} (h : ∀ t ∈ ts, t.slips = false) :
    anySlips ts = false := by
  induction ts with
  | nil => rfl
  | cons t ts ih =>
    rw [anySlips, h t List.mem_cons_self, ih fun u hu => h u (List.mem_cons_of_mem t hu)]
    rfl

/-- The tree is made of literals and of references of some kind, with negations, conjunctions,
disjunctions and comments. -/
inductive IsLogical (refs : Reference → Prop) : Tree → Prop
  | literal (l : Literal) : IsLogical refs (.literal l)
  | reference {r : Reference} (bound : refs r) : IsLogical refs (.reference r)
  | negated {t : Tree} (operand : IsLogical refs t) : IsLogical refs (.prefixed .not t)
  | joined {op : BinaryOperator} {absorbing : Bool} {t u : Tree}
    (joins : op.absorbing? = some absorbing) (left : IsLogical refs t)
    (right : IsLogical refs u) : IsLogical refs (.infixed op t u)
  | called {f : Callee} {absorbing : Bool} {ts : List Tree}
    (joins : f.absorbing? = some absorbing) (each : ∀ t ∈ ts, IsLogical refs t) :
    IsLogical refs (.call f ts)
  | annotated {t : Tree} {label : String} (subject : IsLogical refs t) :
    IsLogical refs (.annotated t label)

namespace IsLogical

variable {refs : Reference → Prop} {absorbing : Bool} {t : Tree} {ts : List Tree}

theorem of_call {f : Callee} (h : (call f ts).IsLogical refs) : ∀ t ∈ ts, t.IsLogical refs := by
  cases h with
  | called _ each => exact each

theorem fold (h : ∀ t ∈ ts, t.IsLogical refs) : (fold absorbing ts).IsLogical refs := by
  have hkept : ∀ us, keep absorbing ts = some us → ∀ u ∈ us, u.IsLogical refs :=
    fun us hkeep => of_mem_keep (fun _ _ => of_call) hkeep h
  rw [Tree.fold]
  split
  · exact .literal _
  · exact .literal _
  · rename_i t hkeep
    exact hkept _ hkeep t List.mem_cons_self
  · rename_i us _ _ hkeep
    have hjoins : (Callee.many (if absorbing then .any else .all)).absorbing? = some absorbing := by
      cases absorbing <;> rfl
    exact .called hjoins (hkept us hkeep)

theorem folded (h : t.IsLogical refs) : t.folded.IsLogical refs := by
  induction h with
  | literal l => exact .literal l
  | reference bound => exact .reference bound
  | negated _ ih => exact .negated ih
  | joined joins _ _ ih ih' =>
    rw [Tree.folded] at ih ih' ⊢
    simp only [rebuild, joins]
    exact fold (by simpa using ⟨ih, ih'⟩)
  | called joins _ ih =>
    simp only [Tree.folded, rebuild, joins, rebuildAll_eq_map]
    exact fold (List.forall_mem_map.2 ih)
  | annotated _ ih => exact .annotated ih

theorem saturated (h : t.IsLogical refs) : t.Saturated := by
  induction h with
  | literal l => trivial
  | reference bound => trivial
  | negated _ ih => exact ih
  | joined _ _ _ ih ih' => exact ⟨trivial, ih, ih'⟩
  | @called f _ _ joins _ ih =>
    refine ⟨?_, everywhereAll_iff.2 ih⟩
    cases f with
    | many f => trivial
    | _ => cases joins
  | annotated _ ih => exact ih

theorem regrouped_eq_self (h : t.IsLogical refs) : t.regrouped = t := by
  induction h with
  | literal l => rfl
  | reference bound => rfl
  | negated _ ih => rw [Tree.regrouped, ih]
  | @joined op _ t u joins _ _ ih ih' =>
    have hnone : ∀ op', op.regroups op' = false := by
      intro op'
      cases op <;> first | rfl | cases joins
    rw [Tree.regrouped, ih, ih']
    cases u with
    | infixed op' y z => rw [regroup, hnone, if_neg Bool.false_ne_true]
    | _ => rfl
  | called _ _ ih => rw [Tree.regrouped, regroupedAll_eq_map, List.map_congr_left ih, List.map_id']
  | annotated _ ih => rw [Tree.regrouped, ih]

theorem slips_eq_false (h : t.IsLogical refs) : t.slips = false := by
  induction h with
  | literal l => rfl
  | reference bound => rfl
  | negated _ ih => exact ih
  | @joined op _ _ _ joins _ _ ih ih' =>
    have hop : (op == .multiply) = false := by cases op <;> first | rfl | cases joins
    rw [slips, ih, ih', hop]
    rfl
  | called _ _ ih => exact anySlips_eq_false ih
  | annotated _ ih => exact ih

theorem of_mem_code (h : t.IsLogical refs) : ∀ c ∈ t.code, c.IsLogical refs := by
  induction h with
  | literal l => exact List.forall_mem_singleton.2 trivial
  | reference bound => exact List.forall_mem_singleton.2 bound
  | negated _ ih => exact List.forall_mem_append.2 ⟨ih, List.forall_mem_singleton.2 trivial⟩
  | joined joins _ _ ih ih' =>
    refine List.forall_mem_append.2 ⟨List.forall_mem_append.2 ⟨ih, ih'⟩, ?_⟩
    exact List.forall_mem_singleton.2 (Option.isSome_of_eq_some joins)
  | called _ _ ih =>
    intro c hc
    rcases mem_code_call hc with hc | rfl | rfl
    · rw [codeAll_eq_flatMap] at hc
      obtain ⟨t, ht, hc⟩ := List.mem_flatMap.1 hc
      exact ih t ht c hc
    · trivial
    · trivial
  | annotated _ ih => exact List.forall_mem_append.2 ⟨ih, List.forall_mem_singleton.2 trivial⟩

theorem of_mem_words (h : t.IsLogical refs) (place : Symbol.Place) :
    ∀ w ∈ t.words place, w ≠ .sign (.between .multiply) ∧ w ≠ .sign (.between .dice) := by
  refine t.forall_words (by decide) (by decide) (by decide) (fun c hc w hw => ?_) place
  cases c with
  | sign s =>
    cases s with
    | before op => cases hw; cases op <;> decide
    | between op =>
      cases hw
      have hjoins : op.absorbing?.isSome = true := h.of_mem_code _ hc
      cases op <;> first | decide | cases hjoins
  | arity n => cases hw
  | _ => cases hw; exact ⟨nofun, nofun⟩

theorem isChain_words (h : t.IsLogical refs) (place : Symbol.Place) :
    (t.words place).IsChain fun w v => w.runsInto v = false := by
  refine (List.pairwise_of_forall_mem_list fun w _ v hv => ?_).isChain
  obtain ⟨hmultiply, hdice⟩ := h.of_mem_words place v hv
  unfold Word.runsInto
  split
  · simp only [ne_eq, Word.sign.injEq, Sign.between.injEq] at hmultiply hdice
    simp [hmultiply, hdice]
  · rfl

section

variable {env : Reference → Value} (strict : Bool)

theorem exists_argumentValues (each : ∀ t ∈ ts, ∃ v,
    (t.unbracketed (arithmetic strict)).value (fun r => .ok (env r)) = .ok v ∧
      v.isList = false ∧ v.truth = t.truth env) :
    ∃ vs, argumentValues (fun r => .ok (env r)) (unbracketedAll (arithmetic strict) ts) = .ok vs ∧
      (∀ v ∈ vs, v.isList = false) ∧ vs.map Value.truth = ts.map (truth env) := by
  induction ts with
  | nil => exact ⟨[], rfl, nofun, rfl⟩
  | cons t ts ih =>
    obtain ⟨v, hvalue, hv, htruth⟩ := each t List.mem_cons_self
    obtain ⟨vs, hvalues, hvs, htruths⟩ := ih fun u hu => each u (List.mem_cons_of_mem t hu)
    refine ⟨v :: vs, ?_, List.forall_mem_cons.2 ⟨hv, hvs⟩, ?_⟩
    · rw [unbracketedAll, argumentValues, hvalue, hvalues]
      rfl
    · rw [List.map_cons, List.map_cons, htruth, htruths]

/-- The tree comes to a value that is no list and has the truth of the tree. -/
theorem exists_value (h : t.IsLogical refs) (single : ∀ r, refs r → (env r).isList = false) :
    ∃ v, (t.unbracketed (arithmetic strict)).value (fun r => .ok (env r)) = .ok v ∧
      v.isList = false ∧ v.truth = t.truth env := by
  induction h with
  | literal l =>
    refine ⟨l.value (arithmetic strict), rfl, isList_literal strict l, ?_⟩
    cases l <;> rfl
  | @reference r bound => exact ⟨env r, rfl, single r bound, rfl⟩
  | @negated t _ ih =>
    obtain ⟨v, hvalue, -, htruth⟩ := ih
    refine ⟨.boolean !v.truth, ?_, rfl, ?_⟩
    · rw [unbracketed, Expression.value, hvalue, op_prefixSign]
      rfl
    · rw [truth, ← htruth]
      rfl
  | @joined op _ t u joins _ _ ih ih' =>
    obtain ⟨v, hvalue, -, htruth⟩ := ih
    obtain ⟨w, hvalue', -, htruth'⟩ := ih'
    refine ⟨.boolean ((infixed op t u).truth env), ?_, rfl, rfl⟩
    rw [unbracketed, Expression.value, hvalue, hvalue', op_infixSign, truth, joins, ← htruth,
      ← htruth']
    exact binary_eq_junction strict joins v w
  | @called f absorbing ts joins _ ih =>
    obtain ⟨vs, hvalues, hvs, htruths⟩ := exists_argumentValues strict ih
    refine ⟨.boolean ((call f ts).truth env), ?_, rfl, rfl⟩
    rw [unbracketed, Expression.value, Primary.value, hvalues, truth, joins, truths_eq_map,
      ← htruths]
    exact apply_eq_junction strict joins hvs
  | @annotated t label _ ih =>
    obtain ⟨v, hvalue, hv, htruth⟩ := ih
    refine ⟨.named v label, ?_, hv, htruth⟩
    rw [unbracketed, Expression.value, Primary.value, value_toPrimary, hvalue]
    rfl

end

end IsLogical

end Tree

end FormulaEngine
