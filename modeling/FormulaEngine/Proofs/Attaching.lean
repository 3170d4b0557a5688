import FormulaEngine.Proofs.Bracketing

/-!
# Attaching

What is read where a sign stands before an expression or between two of them, and where a comment
stands after one, all without brackets. Whatever the operators are, that is a well-bracketed
expression again, and one of the same kind if the kind is told from the signs and the operands.
-/
namespace FormulaEngine

open Formula

variable {V : Type} {listOperator : Option (Operator V)}

namespace Expression

/-- A sign before an expression goes to the operators on the left spine that yield to it. -/
def signBefore (s : PrefixSign V) : Expression listOperator → Expression listOperator
  | infixed s' left right =>
    if s'.op.yieldsTo s.op then infixed s' (signBefore s left) right
    else prefixed s (infixed s' left right)
  | e => prefixed s e

/-- The expression that the tokens of another one, the sign and the tokens of `e` are read as: what
stands last is joined to `e` first. -/
def signBetween (s : InfixSign listOperator) (e : Expression listOperator) :
    Expression listOperator → Expression listOperator
  | primary p => join s (primary p) e
  | prefixed s' operand => signBefore s' (signBetween s e operand)
  | infixed s' left right => signBetween s' (signBetween s e right) left

def commented (label : String) : Expression listOperator → Expression listOperator
  | primary p => primary (.annotated p label)
  | prefixed s operand => prefixed s (operand.commented label)
  | infixed s left right => infixed s left (right.commented label)

section

variable (s : PrefixSign V)

theorem tokens_signBefore (e : Expression listOperator) :
    (signBefore s e).tokens = s.token :: e.tokens := by
  match e with
  | primary p => rfl
  | prefixed s' operand => rfl
  | infixed s' left right =>
    have ih := tokens_signBefore left
    rw [signBefore]
    split
    · simp [tokens, ih]
    · rfl

theorem mem_rightSpine_signBefore {e : Expression listOperator} {op : Operator V}
    (h : op ∈ (signBefore s e).rightSpine) : op = s.op ∨ op ∈ e.rightSpine := by
  cases e with
  | primary p => exact List.mem_cons.1 h
  | prefixed s' operand => exact List.mem_cons.1 h
  | infixed s' left right =>
    rw [signBefore] at h
    split at h
    · exact .inr h
    · exact List.mem_cons.1 h

theorem wellBracketed_signBefore {e : Expression listOperator} (h : e.WellBracketed) :
    (signBefore s e).WellBracketed := by
  match e with
  | primary p => exact ⟨h, nofun⟩
  | prefixed s' operand => exact ⟨h, nofun⟩
  | infixed s' left right =>
    by_cases hs : s'.op.yieldsTo s.op = true
    · obtain ⟨hleft, hright, hyields, hholds⟩ := h
      have ih := wellBracketed_signBefore hleft
      rw [signBefore, if_pos hs]
      refine ⟨ih, hright, fun op hop => ?_, hholds⟩
      rcases mem_rightSpine_signBefore s hop with rfl | hop
      · exact hs
      · exact hyields op hop
    · rw [signBefore, if_neg hs]
      exact ⟨h, h.holds (by simpa using hs)⟩

end

theorem tokens_signBetween (s : InfixSign listOperator) (e x : Expression listOperator) :
    (signBetween s e x).tokens = x.tokens ++ s.token :: e.tokens := by
  match x with
  | primary p => exact tokens_join s _ e
  | prefixed s' operand =>
    rw [signBetween, tokens_signBefore, tokens_signBetween s e operand, tokens, List.cons_append]
  | infixed s' left right =>
    rw [signBetween, tokens_signBetween s' _ left, tokens_signBetween s e right, tokens,
      List.append_assoc, List.cons_append]

theorem wellBracketed_signBetween (s : InfixSign listOperator) {e x : Expression listOperator}
    (he : e.WellBracketed) (hx : x.WellBracketed) : (signBetween s e x).WellBracketed := by
  match x with
  | primary p => exact wellBracketed_join s _ hx he nofun
  | prefixed s' operand =>
    exact wellBracketed_signBefore s' (wellBracketed_signBetween s he hx.1)
  | infixed s' left right =>
    exact wellBracketed_signBetween s' (wellBracketed_signBetween s he hx.2.1) hx.1

section

variable (label : String)

theorem tokens_commented (e : Expression listOperator) :
    (e.commented label).tokens = e.tokens ++ [.comment label] := by
  match e with
  | primary p => rfl
  | prefixed s operand => rw [commented, tokens, tokens_commented operand, tokens, List.cons_append]
  | infixed s left right =>
    rw [commented, tokens, tokens_commented right, tokens, List.append_assoc, List.cons_append]

theorem leftSpine_commented (e : Expression listOperator) :
    (e.commented label).leftSpine = e.leftSpine := by
  cases e <;> rfl

theorem wellBracketed_commented {e : Expression listOperator} (h : e.WellBracketed) :
    (e.commented label).WellBracketed := by
  match e with
  | primary p => exact h
  | prefixed s operand =>
    refine ⟨wellBracketed_commented h.1, ?_⟩
    rw [leftSpine_commented]
    exact h.2
  | infixed s left right =>
    obtain ⟨hleft, hright, hyields, hholds⟩ := h
    refine ⟨hleft, wellBracketed_commented hright, hyields, ?_⟩
    rw [leftSpine_commented]
    exact hholds

end

section

variable {before : PrefixSign V → Prop} {between : InfixSign listOperator → Prop}
  {kind : Expression listOperator → Prop}

/-- An expression is of the kind just if its sign is one of some signs and its operands are of the
kind. -/
structure Compositional (before : PrefixSign V → Prop) (between : InfixSign listOperator → Prop)
    (kind : Expression listOperator → Prop) : Prop where
  prefixed_iff {s : PrefixSign V} {e : Expression listOperator} :
    kind (prefixed s e) ↔ before s ∧ kind e
  infixed_iff {s : InfixSign listOperator} {left right : Expression listOperator} :
    kind (infixed s left right) ↔ between s ∧ kind left ∧ kind right

namespace Compositional

theorem signBefore (c : Compositional before between kind) {s : PrefixSign V} (hs : before s)
    {e : Expression listOperator} (he : kind e) : kind (Expression.signBefore s e) := by
  match e with
  | primary p => exact c.prefixed_iff.2 ⟨hs, he⟩
  | prefixed s' operand => exact c.prefixed_iff.2 ⟨hs, he⟩
  | infixed s' left right =>
    obtain ⟨hs', hleft, hright⟩ := c.infixed_iff.1 he
    rw [Expression.signBefore]
    split
    · exact c.infixed_iff.2 ⟨hs', c.signBefore hs hleft, hright⟩
    · exact c.prefixed_iff.2 ⟨hs, he⟩

theorem join (c : Compositional before between kind) {s : InfixSign listOperator} (hs : between s)
    {x e : Expression listOperator} (hx : kind x) (he : kind e) :
    kind (Expression.join s x e) := by
  match e with
  | primary p => exact c.infixed_iff.2 ⟨hs, hx, he⟩
  | prefixed s' operand => exact c.infixed_iff.2 ⟨hs, hx, he⟩
  | infixed s' left right =>
    obtain ⟨hs', hleft, hright⟩ := c.infixed_iff.1 he
    rw [Expression.join]
    split
    · exact c.infixed_iff.2 ⟨hs', c.join hs hx hleft, hright⟩
    · exact c.infixed_iff.2 ⟨hs, hx, he⟩

theorem signBetween (c : Compositional before between kind) {s : InfixSign listOperator}
    (hs : between s) {e x : Expression listOperator} (he : kind e) (hx : kind x) :
    kind (Expression.signBetween s e x) := by
  match x with
  | primary p => exact c.join hs hx he
  | prefixed s' operand =>
    obtain ⟨hs', hoperand⟩ := c.prefixed_iff.1 hx
    exact c.signBefore hs' (c.signBetween hs he hoperand)
  | infixed s' left right =>
    obtain ⟨hs', hleft, hright⟩ := c.infixed_iff.1 hx
    exact c.signBetween hs' (c.signBetween hs he hright) hleft

theorem commented (c : Compositional before between kind) {label : String}
    (annotated : ∀ p, kind (primary p) → kind (primary (.annotated p label)))
    {e : Expression listOperator} (he : kind e) : kind (e.commented label) := by
  match e with
  | primary p => exact annotated p he
  | prefixed s operand =>
    obtain ⟨hs, hoperand⟩ := c.prefixed_iff.1 he
    exact c.prefixed_iff.2 ⟨hs, c.commented annotated hoperand⟩
  | infixed s left right =>
    obtain ⟨hs, hleft, hright⟩ := c.infixed_iff.1 he
    exact c.infixed_iff.2 ⟨hs, hleft, c.commented annotated hright⟩

end Compositional

end

end Expression

/-- The words are those of an expression of some kind, with every operator bound as its rank
demands. -/
def ReadAs {V : Type} [Operand V] (i : Interpretation V)
    (kind : Expression (some (i.binaryOperator .list)) → Prop) (words : List Word) : Prop :=
  ∃ e, kind e ∧ e.WellBracketed ∧ e.tokens = words.map (Word.token i)

namespace ReadAs

variable {V : Type} [Operand V] {i : Interpretation V}
  {kind : Expression (some (i.binaryOperator .list)) → Prop} {before : PrefixSign V → Prop}
  {between : InfixSign (some (i.binaryOperator .list)) → Prop} {words more : List Word}

theorem bracketed (grouped : ∀ e, kind e → kind (.primary (.bracketed e)))
    (h : ReadAs i kind words) : ReadAs i kind (.opening :: (words ++ [.closing])) := by
  obtain ⟨e, he, well, htokens⟩ := h
  refine ⟨_, grouped e he, well, ?_⟩
  rw [Expression.tokens, Primary.tokens, htokens, List.map_cons, List.map_append]
  rfl

theorem prefixed (c : Expression.Compositional before between kind) {op : UnaryOperator}
    (hop : before (op.prefixSign i)) (h : ReadAs i kind words) :
    ReadAs i kind (op.word :: words) := by
  obtain ⟨e, he, well, htokens⟩ := h
  refine ⟨_, c.signBefore hop he, Expression.wellBracketed_signBefore _ well, ?_⟩
  rw [Expression.tokens_signBefore, htokens, token_prefixSign, List.map_cons]

theorem infixed (c : Expression.Compositional before between kind) {op : BinaryOperator}
    (hop : between (op.infixSign i)) (left : ReadAs i kind words) (right : ReadAs i kind more) :
    ReadAs i kind (words ++ op.word :: more) := by
  obtain ⟨x, hx, wellx, htokensx⟩ := left
  obtain ⟨e, he, well, htokens⟩ := right
  refine ⟨_, c.signBetween hop he hx, Expression.wellBracketed_signBetween _ well wellx, ?_⟩
  rw [Expression.tokens_signBetween, htokensx, htokens, token_infixSign, List.map_append,
    List.map_cons]

theorem commented (c : Expression.Compositional before between kind) {label : String}
    (annotated : ∀ p, kind (.primary p) → kind (.primary (.annotated p label)))
    (h : ReadAs i kind words) : ReadAs i kind (words ++ [.comment label]) := by
  obtain ⟨e, he, well, htokens⟩ := h
  refine ⟨_, c.commented annotated he, Expression.wellBracketed_commented label well, ?_⟩
  rw [Expression.tokens_commented, htokens, List.map_append]
  rfl

end ReadAs

end FormulaEngine
