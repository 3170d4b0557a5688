import FormulaEngine.Proofs.Joining
import FormulaEngine.Proofs.Layout

/-!
# Bracketing

The words of a tree are read as an expression: the tree itself, but for the operators that are
joined where brackets are left out. Brackets are left out only around operators that bind tightly
enough to be well bracketed.
-/
namespace FormulaEngine

open Formula

def Sign.standsAt (place : Symbol.Place) : Sign → Bool
  | before op => place.admitsInfix op.precedence
  | between op => op.standsAt place

section Signs

variable {V : Type} (i : Interpretation V)

def Formula.UnaryOperator.prefixSign : UnaryOperator → PrefixSign V
  | .negate => ⟨i.unaryOperator .negate, rfl, some (i.binaryOperator .subtract)⟩
  | .not => ⟨i.unaryOperator .not, rfl, none⟩

def Formula.BinaryOperator.infixSign :
    BinaryOperator → InfixSign (some (i.binaryOperator .list))
  | .list => ⟨i.binaryOperator .list, rfl, .separator, fun _ => rfl⟩
  | .subtract => ⟨i.binaryOperator .subtract, rfl, .twoWay (i.unaryOperator .negate), nofun⟩
  | op => ⟨i.binaryOperator op, rfl, .word, nofun⟩

@[simp] theorem op_prefixSign (op : UnaryOperator) :
    (op.prefixSign i).op = i.unaryOperator op := by
  cases op <;> rfl

@[simp] theorem op_infixSign (op : BinaryOperator) :
    (op.infixSign i).op = i.binaryOperator op := by
  cases op <;> rfl

theorem token_prefixSign [Operand V] (op : UnaryOperator) :
    (op.prefixSign i).token = op.word.token i := by
  cases op <;> rfl

theorem token_infixSign [Operand V] (op : BinaryOperator) :
    (op.infixSign i).token = op.word.token i := by
  cases op <;> rfl

theorem eq_list_of_isSeparator {op : BinaryOperator} (h : (op.infixSign i).isSeparator = true) :
    op = .list := by
  cases op <;> first | rfl | cases h

end Signs

namespace Expression

variable {V : Type} {listOperator : Option (Operator V)}

def bracketUnless (bare : Bool) (e : Expression listOperator) : Expression listOperator :=
  if bare then e else .primary (.bracketed e)

/-- The expression where no operator can stand without brackets. -/
def toPrimary : Expression listOperator → Primary listOperator
  | .primary p => p
  | e => .bracketed e

theorem postorder_bracketUnless (bare : Bool) (e : Expression listOperator) :
    (bracketUnless bare e).postorder = e.postorder := by
  cases bare <;> rfl

theorem postorder_toPrimary (e : Expression listOperator) :
    e.toPrimary.postorder = e.postorder := by
  cases e <;> rfl

theorem mem_leftSpine_bracketUnless {bare : Bool} {e : Expression listOperator}
    {op : Operator V} (h : op ∈ (bracketUnless bare e).leftSpine) :
    bare = true ∧ op ∈ e.leftSpine := by
  cases bare with
  | true => exact ⟨rfl, h⟩
  | false => cases h

theorem mem_rightSpine_bracketUnless {bare : Bool} {e : Expression listOperator}
    {op : Operator V} (h : op ∈ (bracketUnless bare e).rightSpine) :
    bare = true ∧ op ∈ e.rightSpine := by
  cases bare with
  | true => exact ⟨rfl, h⟩
  | false => cases h

theorem hasBareSeparator_bracketUnless (bare : Bool) (e : Expression listOperator) :
    (bracketUnless bare e).hasBareSeparator = (bare && e.hasBareSeparator) := by
  cases bare <;> rfl

theorem wellBracketed_bracketUnless {e : Expression listOperator} (h : e.WellBracketed)
    (bare : Bool) : (bracketUnless bare e).WellBracketed := by
  cases bare <;> exact h

theorem wellBracketed_toPrimary {e : Expression listOperator} (h : e.WellBracketed) :
    e.toPrimary.WellBracketed := by
  cases e <;> exact h

end Expression

namespace Tree

section Expressions

variable {V : Type} [Operand V] (i : Interpretation V)

mutual

/-- What the words of a tree are read as. -/
def expression (place : Symbol.Place) : Tree → Expression (some (i.binaryOperator .list))
  | literal l => .primary (.term (l.value i))
  | reference r => .primary (.reference r)
  | prefixed op operand =>
    .bracketUnless (place.admitsInfix op.precedence)
      (.prefixed (op.prefixSign i) (operand.expression (.operand op.precedence false)))
  | infixed op left right =>
    .bracketUnless (op.standsAt place)
      (.join (op.infixSign i) (left.expression op.leftPlace) (right.expression op.rightPlace))
  | call f arguments => .primary (.call (f.symbol i) (expressions arguments))
  | annotated subject label => .primary (.annotated (subject.expression .tight).toPrimary label)

def expressions : List Tree → List (Expression (some (i.binaryOperator .list)))
  | [] => []
  | t :: ts => t.expression .argument :: expressions ts

end

theorem length_expressions (ts : List Tree) : (expressions i ts).length = ts.length := by
  induction ts with
  | nil => rfl
  | cons t ts ih => rw [expressions, List.length_cons, ih, List.length_cons]

theorem callCode_symbol (f : Callee) (count : Nat) :
    callCode (f.symbol i) count =
      instructions i ((if f.isVariadic then [.arity count] else []) ++ [.callee f]) := by
  rw [callCode, Callee.isVariadic_symbol]
  cases f.isVariadic <;> rfl

section Instructions

variable {e x : Expression (some (i.binaryOperator .list))} {t u : Tree}

theorem postorder_prefixed (operand : e.postorder = instructions i t.code) (op : UnaryOperator) :
    (Expression.prefixed (op.prefixSign i) e).postorder = instructions i (prefixed op t).code := by
  rw [Expression.postorder, operand, op_prefixSign, code, instructions_append]
  rfl

theorem postorder_infixed (left : x.postorder = instructions i t.code)
    (right : e.postorder = instructions i u.code) (op : BinaryOperator) :
    (Expression.infixed (op.infixSign i) x e).postorder = instructions i (infixed op t u).code := by
  rw [Expression.postorder, left, right, op_infixSign, code, instructions_append,
    instructions_append]
  rfl

theorem postorder_call {es : List (Expression (some (i.binaryOperator .list)))} {ts : List Tree}
    (arguments : argumentsPostorder es = instructions i (codeAll ts))
    (length : es.length = ts.length) (f : Callee) :
    (Primary.call (f.symbol i) es).postorder = instructions i (call f ts).code := by
  rw [Primary.postorder, arguments, length, callCode_symbol, code,
    instructions_append i (codeAll ts)]

theorem postorder_annotated {p : Primary (some (i.binaryOperator .list))}
    (subject : p.postorder = instructions i t.code) (label : String) :
    (Primary.annotated p label).postorder = instructions i (annotated t label).code := by
  rw [Primary.postorder, subject, code, instructions_append]
  rfl

end Instructions

theorem tokens_bracketUnless {e : Expression (some (i.binaryOperator .list))} {words : List Word}
    (h : e.tokens = words.map (Word.token i)) (bare : Bool) :
    (e.bracketUnless bare).tokens = (bracketUnless bare words).map (Word.token i) := by
  cases bare with
  | true => exact h
  | false =>
    simp [Expression.bracketUnless, bracketUnless, Expression.tokens, Primary.tokens, h,
      Word.token]

theorem exists_expression_tight (t : Tree) : ∃ p, t.expression i .tight = .primary p := by
  cases t with
  | prefixed op operand => exact ⟨_, rfl⟩
  | infixed op left right => cases op <;> exact ⟨_, rfl⟩
  | _ => exact ⟨_, rfl⟩

mutual

theorem tokens_expression (t : Tree) (place : Symbol.Place) :
    (t.expression i place).tokens = (t.words place).map (Word.token i) := by
  cases t with
  | literal l => rfl
  | reference r => rfl
  | prefixed op operand =>
    have hoperand := operand.tokens_expression (.operand op.precedence false)
    refine tokens_bracketUnless i ?_ _
    rw [Expression.tokens, token_prefixSign, hoperand, List.map_cons]
  | infixed op left right =>
    have hleft := left.tokens_expression op.leftPlace
    have hright := right.tokens_expression op.rightPlace
    refine tokens_bracketUnless i ?_ _
    rw [Expression.tokens_join, token_infixSign, hleft, hright, List.map_append, List.map_cons]
  | call f arguments =>
    have harguments := argumentTokens_expressions arguments
    simp [expression, Expression.tokens, Primary.tokens, words, Word.token, harguments]
  | annotated subject label =>
    have hsubject := subject.tokens_expression .tight
    obtain ⟨p, hp⟩ := subject.exists_expression_tight i
    rw [hp] at hsubject
    simp only [expression, hp, Expression.toPrimary, Expression.tokens, Primary.tokens, words,
      List.map_append, List.map_cons, List.map_nil, Word.token] at hsubject ⊢
    rw [hsubject]

theorem argumentTokens_expressions (ts : List Tree) :
    argumentTokens (expressions i ts) =
      ([Word.separator].intercalate (wordsAll ts)).map (Word.token i) := by
  match ts with
  | [] => rfl
  | [t] =>
    have ht := t.tokens_expression .argument
    simp [expressions, argumentTokens, furtherTokens, wordsAll, ht]
  | t :: u :: ts =>
    have ht := t.tokens_expression .argument
    have hrest := argumentTokens_expressions (u :: ts)
    simp only [expressions, argumentTokens] at hrest
    simp only [expressions, argumentTokens, furtherTokens, wordsAll, List.intercalate_cons_cons,
      List.map_append, ht, hrest]
    simp [Word.token]

end

end Expressions

/-- How tightly the outermost operator binds; what has none is bound tighter than all. -/
def level (t : Tree) : Nat := t.root?.elim 6 Sign.precedence

def standsAt (t : Tree) (place : Symbol.Place) : Bool := t.root?.elim true (Sign.standsAt place)

variable {t : Tree}

theorem level_of_standsAt_leftPlace {op : BinaryOperator} (h : t.standsAt op.leftPlace = true) :
    op.precedence ≤ t.level ∧ (op.associativity = .right → op.precedence < t.level) := by
  unfold level standsAt at *
  revert h
  rcases t.root? with _ | ⟨op' | op'⟩
  · cases op <;> decide
  · cases op <;> cases op' <;> decide
  · cases op <;> cases op' <;> decide

theorem level_of_standsAt_rightPlace {op : BinaryOperator}
    (h : t.standsAt op.rightPlace = true) : op.precedence ≤ t.level := by
  unfold level standsAt at *
  revert h
  rcases t.root? with _ | ⟨op' | op'⟩
  · cases op <;> decide
  · cases op <;> cases op' <;> decide
  · cases op <;> cases op' <;> decide

theorem level_of_standsAt_unary {op : UnaryOperator}
    (h : t.standsAt (.operand op.precedence false) = true) : op.precedence < t.level := by
  unfold level standsAt at *
  revert h
  rcases t.root? with _ | ⟨op' | op'⟩
  · cases op <;> decide
  · cases op <;> cases op' <;> decide
  · cases op <;> cases op' <;> decide

theorem level_of_standsAt_argument (h : t.standsAt .argument = true) : 1 < t.level := by
  unfold level standsAt at *
  revert h
  rcases t.root? with _ | ⟨op | op⟩
  · decide
  · cases op <;> decide
  · cases op <;> decide

section

variable {V : Type} [Operand V] (i : Interpretation V)

theorem of_mem_leftSpine {t : Tree} {place : Symbol.Place} {op : Operator V}
    (h : op ∈ (t.expression i place).leftSpine) :
    t.standsAt place = true ∧ ∃ b, op = i.binaryOperator b ∧ t.level ≤ b.precedence := by
  cases t with
  | prefixed op' operand => cases (Expression.mem_leftSpine_bracketUnless h).2
  | infixed b left right =>
    obtain ⟨hbare, h⟩ := Expression.mem_leftSpine_bracketUnless h
    refine ⟨hbare, ?_⟩
    obtain rfl | h | h := Expression.mem_leftSpine_join _ _ h
    · exact ⟨b, op_infixSign i b, Nat.le_refl _⟩
    · obtain ⟨hstands, b', rfl, hlevel⟩ := of_mem_leftSpine h
      exact ⟨b', rfl, Nat.le_trans (level_of_standsAt_leftPlace hstands).1 hlevel⟩
    · obtain ⟨hstands, b', rfl, hlevel⟩ := of_mem_leftSpine h
      exact ⟨b', rfl, Nat.le_trans (level_of_standsAt_rightPlace hstands) hlevel⟩
  | _ => cases h

theorem of_mem_rightSpine {t : Tree} {place : Symbol.Place} {op : Operator V}
    (h : op ∈ (t.expression i place).rightSpine) :
    t.standsAt place = true ∧ t.level ≤ op.precedence := by
  cases t with
  | prefixed op' operand =>
    obtain ⟨hbare, h⟩ := Expression.mem_rightSpine_bracketUnless h
    refine ⟨hbare, ?_⟩
    rcases List.mem_cons.1 h with rfl | h
    · rw [op_prefixSign]
      exact Nat.le_refl _
    · obtain ⟨hstands, hlevel⟩ := of_mem_rightSpine h
      exact Nat.le_trans (Nat.le_of_lt (level_of_standsAt_unary hstands)) hlevel
  | infixed b left right =>
    obtain ⟨hbare, h⟩ := Expression.mem_rightSpine_bracketUnless h
    refine ⟨hbare, ?_⟩
    obtain rfl | h := Expression.mem_rightSpine_join _ _ h
    · rw [op_infixSign]
      exact Nat.le_refl _
    · obtain ⟨hstands, hlevel⟩ := of_mem_rightSpine h
      exact Nat.le_trans (level_of_standsAt_rightPlace hstands) hlevel
  | _ => cases h

theorem of_hasBareSeparator {t : Tree} {place : Symbol.Place}
    (h : (t.expression i place).hasBareSeparator = true) :
    t.standsAt place = true ∧ t.level ≤ 1 := by
  cases t with
  | prefixed op operand =>
    rw [expression, Expression.hasBareSeparator_bracketUnless, Bool.and_eq_true] at h
    obtain ⟨hbare, h⟩ := h
    obtain ⟨hstands, hlevel⟩ := of_hasBareSeparator h
    exact ⟨hbare, Nat.le_trans (Nat.le_of_lt (level_of_standsAt_unary hstands)) hlevel⟩
  | infixed b left right =>
    rw [expression, Expression.hasBareSeparator_bracketUnless, Bool.and_eq_true,
      Expression.hasBareSeparator_join, Bool.or_eq_true, Bool.or_eq_true] at h
    obtain ⟨hbare, h⟩ := h
    refine ⟨hbare, ?_⟩
    obtain (h | h) | h := h
    · obtain rfl := eq_list_of_isSeparator i h
      exact Nat.le_refl _
    · obtain ⟨hstands, hlevel⟩ := of_hasBareSeparator h
      exact Nat.le_trans (level_of_standsAt_leftPlace hstands).1 hlevel
    · obtain ⟨hstands, hlevel⟩ := of_hasBareSeparator h
      exact Nat.le_trans (level_of_standsAt_rightPlace hstands) hlevel
  | _ => cases h

theorem hasBareSeparator_argument (t : Tree) :
    (t.expression i .argument).hasBareSeparator = false := by
  refine Bool.eq_false_iff.2 fun h => ?_
  obtain ⟨hstands, hlevel⟩ := of_hasBareSeparator i h
  have hargument := level_of_standsAt_argument hstands
  omega

/-- An operator completes all that its bare left operand leaves pending. -/
theorem yieldsTo_of_mem_rightSpine {b : BinaryOperator} {t : Tree} {op : Operator V}
    (h : op ∈ (t.expression i b.leftPlace).rightSpine) :
    (i.binaryOperator b).yieldsTo op = true := by
  obtain ⟨hstands, hlevel⟩ := of_mem_rightSpine i h
  obtain ⟨hle, hlt⟩ := level_of_standsAt_leftPlace hstands
  rw [Operator.yieldsTo_iff]
  cases hside : b.associativity with
  | left =>
    rcases Nat.lt_or_eq_of_le (Nat.le_trans hle hlevel) with hlt | heq
    · exact .inl hlt
    · exact .inr ⟨hside, heq⟩
  | right => exact .inl (Nat.lt_of_lt_of_le (hlt hside) hlevel)

mutual

theorem wellBracketed_expression (t : Tree) (place : Symbol.Place) :
    (t.expression i place).WellBracketed := by
  cases t with
  | literal l => trivial
  | reference r => trivial
  | prefixed op operand =>
    have hoperand := operand.wellBracketed_expression (.operand op.precedence false)
    have hholds : ∀ top ∈ (operand.expression i (.operand op.precedence false)).leftSpine,
        top.yieldsTo (op.prefixSign i).op = false := by
      intro top htop
      obtain ⟨hstands, b, rfl, hlevel⟩ := of_mem_leftSpine i htop
      rw [op_prefixSign]
      exact Operator.yieldsTo_eq_false (Nat.lt_of_lt_of_le (level_of_standsAt_unary hstands) hlevel)
    have hwell : (Expression.prefixed (op.prefixSign i)
        (operand.expression i (.operand op.precedence false))).WellBracketed := ⟨hoperand, hholds⟩
    exact Expression.wellBracketed_bracketUnless hwell _
  | infixed op left right =>
    have hleft := left.wellBracketed_expression op.leftPlace
    have hright := right.wellBracketed_expression op.rightPlace
    refine Expression.wellBracketed_bracketUnless
      (Expression.wellBracketed_join _ _ hleft hright fun top htop => ?_) _
    rw [op_infixSign]
    exact yieldsTo_of_mem_rightSpine i htop
  | call f arguments => exact argumentsWellBracketed_expressions arguments
  | annotated subject label =>
    exact Expression.wellBracketed_toPrimary (subject.wellBracketed_expression .tight)

theorem argumentsWellBracketed_expressions (ts : List Tree) :
    ArgumentsWellBracketed (expressions i ts) := by
  cases ts with
  | nil => trivial
  | cons t ts =>
    exact ⟨t.wellBracketed_expression .argument, hasBareSeparator_argument i t,
      argumentsWellBracketed_expressions ts⟩

end

/-- The words of a tree are read as the expression for them. -/
theorem toPostfix_words (t : Tree) (place : Symbol.Place) :
    toPostfix (some (i.binaryOperator .list)) ((t.words place).map (Word.token i)) =
      (t.expression i place).postorder := by
  have hread : postfixFrom (some (i.binaryOperator .list)) none [] (t.expression i place).tokens =
      (t.expression i place).postorder ++ completeAll [] :=
    (t.expression i place).postfixFrom_tokens (t.wellBracketed_expression i place) rfl
      (fun _ _ => trivial) (fun _ => rfl)
  rwa [completeAll, List.append_nil, tokens_expression] at hread

end

end Tree

end FormulaEngine
