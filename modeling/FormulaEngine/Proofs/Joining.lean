import FormulaEngine.Proofs.Reading

/-!
# Joining expressions

What is read where an operator stands between two expressions without brackets: the operators on
the left spine of the second one that yield to it take the whole of what it makes as their first
operand.
-/
namespace FormulaEngine

variable {V : Type} {listOperator : Option (Operator V)}

theorem Operator.yieldsTo_iff {a b : Operator V} : a.yieldsTo b = true ↔
    a.precedence < b.precedence ∨ (a.associativity = .left ∧ a.precedence = b.precedence) := by
  simp only [Operator.yieldsTo, Bool.or_eq_true, Bool.and_eq_true, decide_eq_true_eq, beq_iff_eq]

theorem Operator.yieldsTo_eq_false {a b : Operator V} (h : b.precedence < a.precedence) :
    a.yieldsTo b = false := by
  refine Bool.eq_false_iff.2 fun hyields => ?_
  have hle := yieldsTo_iff.1 hyields
  omega

theorem Operator.yieldsTo_trans {a b c : Operator V} (hab : a.yieldsTo b = true)
    (hbc : b.yieldsTo c = true) : a.yieldsTo c = true := by
  rw [yieldsTo_iff] at *
  rcases hab with hab | ⟨hleft, hab⟩
  · exact .inl (by omega)
  · rcases hbc with hbc | ⟨_, hbc⟩
    · exact .inl (by omega)
    · exact .inr ⟨hleft, by omega⟩

namespace Expression

/-- The expression that the tokens of `x`, the sign and the tokens of another one are read as. -/
def join (s : InfixSign listOperator) (x : Expression listOperator) :
    Expression listOperator → Expression listOperator
  | infixed s' left right =>
    if s'.op.yieldsTo s.op then infixed s' (join s x left) right
    else infixed s x (infixed s' left right)
  | e => infixed s x e

/-- The postorder with the operator of a sign put where an expression before it comes to it. -/
def postorderWith (s : InfixSign listOperator) : Expression listOperator → List (Instruction V)
  | infixed s' left right =>
    if s'.op.yieldsTo s.op then left.postorderWith s ++ right.postorder ++ [.operator s'.op]
    else (infixed s' left right).postorder ++ [.operator s.op]
  | e => e.postorder ++ [.operator s.op]

variable (s : InfixSign listOperator) (x : Expression listOperator)

theorem tokens_join (e : Expression listOperator) :
    (join s x e).tokens = x.tokens ++ s.token :: e.tokens := by
  match e with
  | primary p => rfl
  | prefixed s' operand => rfl
  | infixed s' left right =>
    have ih := tokens_join left
    rw [join]
    split
    · simp [tokens, ih]
    · rfl

theorem postorder_join (e : Expression listOperator) :
    (join s x e).postorder = x.postorder ++ e.postorderWith s := by
  match e with
  | primary p => simp [join, postorder, postorderWith]
  | prefixed s' operand => simp [join, postorder, postorderWith]
  | infixed s' left right =>
    have ih := postorder_join left
    rw [join, postorderWith]
    split
    · simp [postorder, ih]
    · simp [postorder]

theorem mem_leftSpine_join {e : Expression listOperator} {op : Operator V}
    (h : op ∈ (join s x e).leftSpine) : op = s.op ∨ op ∈ x.leftSpine ∨ op ∈ e.leftSpine := by
  match e with
  | primary p => exact (List.mem_cons.1 h).imp_right .inl
  | prefixed s' operand => exact (List.mem_cons.1 h).imp_right .inl
  | infixed s' left right =>
    rw [join] at h
    split at h
    · rcases List.mem_cons.1 h with rfl | h
      · exact .inr (.inr (List.mem_cons_self))
      · exact (mem_leftSpine_join h).imp_right (.imp_right (List.mem_cons_of_mem _))
    · exact (List.mem_cons.1 h).imp_right .inl

theorem mem_rightSpine_join {e : Expression listOperator} {op : Operator V}
    (h : op ∈ (join s x e).rightSpine) : op = s.op ∨ op ∈ e.rightSpine := by
  cases e with
  | primary p => exact List.mem_cons.1 h
  | prefixed s' operand => exact List.mem_cons.1 h
  | infixed s' left right =>
    rw [join] at h
    split at h
    · exact .inr h
    · exact List.mem_cons.1 h

theorem hasBareSeparator_join (e : Expression listOperator) :
    (join s x e).hasBareSeparator =
      (s.isSeparator || x.hasBareSeparator || e.hasBareSeparator) := by
  match e with
  | primary p => rfl
  | prefixed s' operand => rfl
  | infixed s' left right =>
    have ih := hasBareSeparator_join left
    rw [join]
    split
    · simp only [hasBareSeparator, ih]
      ac_rfl
    · rfl

theorem WellBracketed.holds {s' : InfixSign listOperator} {left right : Expression listOperator}
    (h : (infixed s' left right).WellBracketed) {top : Operator V}
    (holds : s'.op.yieldsTo top = false) :
    ∀ op ∈ (infixed s' left right).leftSpine, op.yieldsTo top = false := by
  obtain ⟨hleft, _, hyields, _⟩ := h
  intro op hop
  rcases List.mem_cons.1 hop with rfl | hop
  · exact holds
  · match left with
    | primary p => cases hop
    | prefixed s'' operand => cases hop
    | infixed s'' left' right' =>
      have hroot : s'.op.yieldsTo s''.op = true := hyields _ List.mem_cons_self
      refine WellBracketed.holds hleft (Bool.eq_false_iff.2 fun hyields' => ?_) op hop
      rw [Operator.yieldsTo_trans hroot hyields'] at holds
      cases holds

theorem wellBracketed_join {e : Expression listOperator} (hx : x.WellBracketed)
    (he : e.WellBracketed) (yields : ∀ op ∈ x.rightSpine, s.op.yieldsTo op = true) :
    (join s x e).WellBracketed := by
  match e with
  | primary p => exact ⟨hx, he, yields, nofun⟩
  | prefixed s' operand => exact ⟨hx, he, yields, nofun⟩
  | infixed s' left right =>
    by_cases hs : s'.op.yieldsTo s.op = true
    · obtain ⟨hleft, hright, hyields, hholds⟩ := he
      have ih := wellBracketed_join hx hleft yields
      rw [join, if_pos hs]
      refine ⟨ih, hright, fun op hop => ?_, hholds⟩
      rcases mem_rightSpine_join s x hop with rfl | hop
      · exact hs
      · exact hyields op hop
    · rw [join, if_neg hs]
      exact ⟨hx, he, yields, he.holds (by simpa using hs)⟩

theorem postorderWith_of_holds {e : Expression listOperator}
    (holds : ∀ op ∈ e.leftSpine, op.yieldsTo s.op = false) :
    e.postorderWith s = e.postorder ++ [.operator s.op] := by
  cases e with
  | primary p => rfl
  | prefixed s' operand => rfl
  | infixed s' left right =>
    have hs : s'.op.yieldsTo s.op = false := holds _ List.mem_cons_self
    simp [postorderWith, hs]

/-- An operator goes on past a join with an operator of its own precedence. -/
theorem postorderWith_join {s' : InfixSign listOperator} (yields : s'.op.yieldsTo s.op = true)
    (same : s'.op.precedence = s.op.precedence) (e : Expression listOperator) :
    (join s' x e).postorderWith s = x.postorderWith s ++ e.postorderWith s' := by
  match e with
  | primary p => simp [join, postorderWith, yields]
  | prefixed s'' operand => simp [join, postorderWith, yields]
  | infixed s'' left right =>
    have ih := postorderWith_join yields same left
    have hsame : s''.op.yieldsTo s.op = s''.op.yieldsTo s'.op := by
      simp only [Operator.yieldsTo, same]
    by_cases hs : s''.op.yieldsTo s'.op = true
    · simp [join, postorderWith, hsame, hs, ih]
    · simp [join, postorderWith, hs, yields]

end Expression

end FormulaEngine
