import FormulaEngine.Proofs.Emission
import FormulaEngine.Proofs.Expression
import Mathlib.Algebra.GroupWithZero.Nat

/-!
# Reading expressions

The reordering reads a well-bracketed expression as the tree it is. While it is read, the work that
is pending above what was pending before it are exactly the operators on the right spine of the part
read so far; their instructions are all that is missing from the postorder of that part.
-/
namespace FormulaEngine

variable {V : Type} {listOperator : Option (Operator V)}

def Token.endsOperand : Token V → Bool
  | .term _ => true
  | .reference _ => true
  | .comment _ => true
  | .closing => true
  | _ => false

def endsInOperand (previous : Option (Token V)) : Prop :=
  ∃ token, previous = some token ∧ token.endsOperand = true

theorem endsInOperand.startsOperand {previous : Option (Token V)} (h : endsInOperand previous) :
    Token.startsOperand previous = false := by
  obtain ⟨token, rfl, ht⟩ := h
  cases token <;> simp_all [Token.startsOperand, Token.endsOperand]

theorem startsOperand_prefixSign (s : PrefixSign V) :
    Token.startsOperand (some s.token) = true := by
  obtain ⟨op, _, between?⟩ := s
  cases between? <;> rfl

theorem startsOperand_infixSign (s : InfixSign listOperator) :
    Token.startsOperand (some s.token) = true := by
  obtain ⟨op, _, form, _⟩ := s
  cases form <;> rfl

theorem emit_prefixSign (s : PrefixSign V) {previous : Option (Token V)}
    (starts : Token.startsOperand previous = true) (pending : List (Pending V)) :
    emit listOperator previous pending s.token = ([], .operator s.op :: pending) := by
  obtain ⟨op, hop, between?⟩ := s
  cases between? with
  | none => simp [PrefixSign.token, emit, pendOperator, hop]
  | some binary => simp [PrefixSign.token, emit, starts, pendOperator, hop]

theorem emit_infixSign (s : InfixSign listOperator) {previous : Option (Token V)}
    (ends : endsInOperand previous) (ops : List (Operator V)) (pending : List (Pending V))
    (yields : ∀ op ∈ ops, s.op.yieldsTo op = true) (holds : holdsAgainst s.op pending)
    (outside : s.isSeparator = true → insideCall pending = false) :
    emit listOperator previous (pendingOperators ops ++ pending) s.token =
      (operatorCode ops, .operator s.op :: pending) := by
  have hbefore := completeBefore_pendingOperators yields holds
  obtain ⟨op, hop, form, hlist⟩ := s
  have hpend : pendOperator op (pendingOperators ops ++ pending) =
      (operatorCode ops, .operator op :: pending) := by
    simp only [pendOperator, hop, Bool.false_eq_true, if_false, hbefore]
  cases form with
  | word => exact hpend
  | twoWay unary =>
    simp only [InfixSign.token, emit, ends.startsOperand, Bool.false_eq_true, if_false, hpend]
  | separator =>
    have hout : insideCall (pendingOperators ops ++ pending) = false := by
      rw [insideCall_pendingOperators]
      exact outside rfl
    have hl : listOperator = some op := hlist rfl
    simp only [InfixSign.token, emit, separate, hout]
    rw [hl]
    exact hpend

variable (listOperator) in
theorem emit_closing_call (f : FunctionSymbol V) {previous : Option (Token V)}
    (ends : endsInOperand previous) (ops : List (Operator V)) (arguments : Nat)
    (pending : List (Pending V)) :
    emit listOperator previous (pendingOperators ops ++ .call f arguments :: pending) .closing =
      (operatorCode ops ++ callCode f arguments, pending) := by
  obtain ⟨token, rfl, ht⟩ := ends
  simp only [emit, closeBracket, completeInside_pendingOperators, completeInside, callCode,
    List.append_nil, List.append_assoc]
  cases token <;> first | rfl | cases ht

variable (listOperator) in
theorem emit_closing_empty (f : FunctionSymbol V) (arguments : Nat) (pending : List (Pending V)) :
    emit listOperator (some .opening) (.call f arguments :: pending) .closing =
      (callCode f 0, pending) := by
  simp [emit, closeBracket, completeInside, callCode]

variable (listOperator) in
theorem emit_closing_group (previous : Option (Token V)) (ops : List (Operator V))
    (pending : List (Pending V)) :
    emit listOperator previous (pendingOperators ops ++ .group :: pending) .closing =
      (operatorCode ops, pending) := by
  simp only [emit, closeBracket, completeInside_pendingOperators, completeInside, List.append_nil]

variable (listOperator) in
theorem emit_separator_call (f : FunctionSymbol V) (previous : Option (Token V))
    (ops : List (Operator V)) (arguments : Nat) (pending : List (Pending V)) :
    emit listOperator previous (pendingOperators ops ++ .call f arguments :: pending) .separator =
      (operatorCode ops, .call f (arguments + 1) :: pending) := by
  have hin : insideCall (pendingOperators ops ++ .call f arguments :: pending) = true := by
    rw [insideCall_pendingOperators]
    rfl
  simp only [emit, separate, hin, completeInside_pendingOperators, completeInside, List.append_nil]

/-- The pending work after a right spine was read. -/
def Expression.waiting (e : Expression listOperator) : List (Pending V) :=
  pendingOperators e.rightSpine.reverse

/-- The part of the postorder that is complete when the expression has been read. -/
def Expression.emitted : Expression listOperator → List (Instruction V)
  | .primary p => p.postorder
  | .prefixed _ operand => operand.emitted
  | .infixed _ left right => left.postorder ++ right.emitted

theorem Expression.emitted_append (e : Expression listOperator) :
    e.emitted ++ operatorCode e.rightSpine.reverse = e.postorder := by
  match e with
  | .primary p => simp [emitted, postorder, rightSpine, operatorCode]
  | .prefixed s operand =>
    have ih := operand.emitted_append
    simp only [operatorCode] at ih
    simp only [emitted, postorder, rightSpine, operatorCode, List.reverse_cons, List.map_append,
      ← ih]
    simp
  | .infixed s left right =>
    have ih := right.emitted_append
    simp only [operatorCode] at ih
    simp only [emitted, postorder, rightSpine, operatorCode, List.reverse_cons, List.map_append,
      ← ih]
    simp

/-- Reading `tokens` at this place gives `code` and leaves `waiting` above what was pending. -/
def Reads (listOperator : Option (Operator V)) (previous : Option (Token V))
    (pending : List (Pending V)) (tokens : List (Token V)) (code : List (Instruction V))
    (waiting : List (Pending V)) : Prop :=
  emitAll listOperator previous pending tokens = (code, waiting ++ pending) ∧
    endsInOperand (lastToken previous tokens)

mutual

theorem Primary.reads (p : Primary listOperator) (hp : p.WellBracketed)
    (previous : Option (Token V)) (starts : Token.startsOperand previous = true)
    (pending : List (Pending V)) :
    Reads listOperator previous pending p.tokens p.postorder [] := by
  cases p with
  | term v => exact ⟨rfl, _, rfl, rfl⟩
  | reference r => exact ⟨rfl, _, rfl, rfl⟩
  | bracketed e =>
    have hgroup : emit listOperator previous pending .opening = ([], .group :: pending) := by
      cases previous with
      | none => rfl
      | some token => cases token <;> first | rfl | cases starts
    obtain ⟨he, _⟩ := e.reads hp (some .opening) rfl (.group :: pending)
      (fun _ _ => trivial) (fun _ => rfl)
    have hclose := emitAll_singleton_eq (emit_closing_group listOperator
      (lastToken (some .opening) e.tokens) e.rightSpine.reverse pending)
    refine ⟨?_, .closing, by simp [Primary.tokens], rfl⟩
    simpa [Primary.tokens, Primary.postorder, ← e.emitted_append] using
      emitAll_cons_eq hgroup (emitAll_append_eq he hclose)
  | call f arguments =>
    have hname : emit listOperator previous pending (.function f) = ([], .function f :: pending) :=
      rfl
    have hopen : emit listOperator (some (.function f)) (.function f :: pending) .opening =
        ([], .call f 1 :: pending) := rfl
    refine ⟨?_, .closing, by simp [Primary.tokens], rfl⟩
    cases arguments with
    | nil =>
      have hclose := emitAll_singleton_eq (emit_closing_empty listOperator f 1 pending)
      simpa [Primary.tokens, Primary.postorder, argumentTokens, argumentsPostorder] using
        emitAll_cons_eq hname (emitAll_cons_eq hopen hclose)
    | cons e es =>
      obtain ⟨hwell, hbare, hes⟩ := hp
      obtain ⟨he, hends⟩ := e.reads hwell (some .opening) rfl (.call f 1 :: pending)
        (fun _ _ => trivial) (fun h => by simp [hbare] at h)
      have hmore := furtherTokens_read es hes f 1 hends e.rightSpine.reverse pending
      simpa [Primary.tokens, Primary.postorder, argumentTokens, argumentsPostorder,
        ← e.emitted_append, Nat.add_comm 1] using
        emitAll_cons_eq hname (emitAll_cons_eq hopen (emitAll_append_eq he hmore))
  | annotated subject label =>
    obtain ⟨hsubject, _⟩ := subject.reads hp previous starts pending
    refine ⟨?_, .comment label, by simp [Primary.tokens], rfl⟩
    exact emitAll_append_eq hsubject (emitAll_singleton_eq rfl)

/-- An expression is read above anything that its left spine does not reach. -/
theorem Expression.reads (e : Expression listOperator) (he : e.WellBracketed)
    (previous : Option (Token V)) (starts : Token.startsOperand previous = true)
    (pending : List (Pending V)) (holds : ∀ op ∈ e.leftSpine, holdsAgainst op pending)
    (outside : e.hasBareSeparator = true → insideCall pending = false) :
    Reads listOperator previous pending e.tokens e.emitted e.waiting := by
  -- What an operator completes is decided by its left spine alone: `holds` passes to the left
  -- operand, and the right operand starts anew above the operator itself.
  cases e with
  | primary p => exact p.reads he previous starts pending
  | prefixed s operand =>
    obtain ⟨hoperand, hspine⟩ := he
    obtain ⟨hreads, hends⟩ := operand.reads hoperand (some s.token) (startsOperand_prefixSign s)
      (.operator s.op :: pending) hspine outside
    refine ⟨?_, by simpa [Expression.tokens] using hends⟩
    simpa [Expression.tokens, Expression.emitted, Expression.waiting, Expression.rightSpine,
      pendingOperators] using emitAll_cons_eq (emit_prefixSign s starts pending) hreads
  | infixed s left right =>
    obtain ⟨hl, hr, hyields, hspine⟩ := he
    obtain ⟨hleft, hends⟩ := left.reads hl previous starts pending
      (fun op hop => holds op (by simp [Expression.leftSpine, hop]))
      (fun h => outside (by simp [Expression.hasBareSeparator, h]))
    have hsign := emit_infixSign s hends left.rightSpine.reverse pending
      (fun op hop => hyields op (by simpa using hop)) (holds s.op (by simp [Expression.leftSpine]))
      (fun h => outside (by simp [Expression.hasBareSeparator, h]))
    obtain ⟨hright, hends⟩ := right.reads hr (some s.token) (startsOperand_infixSign s)
      (.operator s.op :: pending) hspine
      (fun h => outside (by simp [Expression.hasBareSeparator, h]))
    refine ⟨?_, by simpa [Expression.tokens] using hends⟩
    simpa [Expression.tokens, Expression.emitted, Expression.waiting, Expression.rightSpine,
      pendingOperators, ← left.emitted_append] using
      emitAll_append_eq hleft (emitAll_cons_eq hsign hright)

theorem furtherTokens_read (es : List (Expression listOperator)) (hes : ArgumentsWellBracketed es)
    (f : FunctionSymbol V) (arguments : Nat) {previous : Option (Token V)}
    (ends : endsInOperand previous) (ops : List (Operator V)) (pending : List (Pending V)) :
    emitAll listOperator previous (pendingOperators ops ++ .call f arguments :: pending)
        (furtherTokens es ++ [.closing]) =
      (operatorCode ops ++ (argumentsPostorder es ++ callCode f (arguments + es.length)),
        pending) := by
  cases es with
  | nil =>
    have hclose := emitAll_singleton_eq
      (emit_closing_call listOperator f ends ops arguments pending)
    simpa [furtherTokens, argumentsPostorder] using hclose
  | cons e es =>
    obtain ⟨hwell, hbare, hes⟩ := hes
    obtain ⟨he, hends⟩ := e.reads hwell (some .separator) rfl
      (.call f (arguments + 1) :: pending) (fun _ _ => trivial) (fun h => by simp [hbare] at h)
    have hmore := furtherTokens_read es hes f (arguments + 1) hends e.rightSpine.reverse pending
    have hsign := emit_separator_call listOperator f previous ops arguments pending
    simpa [furtherTokens, argumentsPostorder, ← e.emitted_append, Nat.add_assoc,
      Nat.add_comm 1] using emitAll_cons_eq hsign (emitAll_append_eq he hmore)

end

theorem Expression.postfixFrom_tokens (e : Expression listOperator) (he : e.WellBracketed)
    {previous : Option (Token V)} (starts : Token.startsOperand previous = true)
    {pending : List (Pending V)} (holds : ∀ op ∈ e.leftSpine, holdsAgainst op pending)
    (outside : e.hasBareSeparator = true → insideCall pending = false) :
    postfixFrom listOperator previous pending e.tokens = e.postorder ++ completeAll pending := by
  obtain ⟨hreads, _⟩ := e.reads he previous starts pending holds outside
  rw [postfixFrom_eq_emitAll, hreads, Expression.waiting, completeAll_pendingOperators,
    ← List.append_assoc, e.emitted_append]

/-- A well-bracketed expression is read as its tree. -/
theorem toPostfix_tokens (e : Expression listOperator) (he : e.WellBracketed) :
    toPostfix listOperator e.tokens = e.postorder := by
  have hread : postfixFrom listOperator none [] e.tokens = e.postorder ++ completeAll [] :=
    e.postfixFrom_tokens he rfl (fun _ _ => trivial) (fun _ => rfl)
  rwa [completeAll, List.append_nil] at hread

namespace Sample

def negation : Operator Nat := ⟨"-", 4, .left, .unary .ok⟩

def subtraction : Operator Nat := ⟨"-", 2, .left, .binary fun a b => .ok (a - b)⟩

def listing : Operator Nat := ⟨",", 1, .left, .binary fun a _ => .ok a⟩

def total : FunctionSymbol Nat := ⟨"sum", .variadic fun ns => .ok ns.sum⟩

/-- `-1-sum((2,3),4)[n]`, where the comma in the brackets is an operator. -/
def difference : Expression (some listing) :=
  .infixed ⟨subtraction, rfl, .twoWay negation, nofun⟩
    (.prefixed ⟨negation, rfl, some subtraction⟩ (.primary (.term 1)))
    (.primary (.annotated (.call total
      [.primary (.bracketed (.infixed ⟨listing, rfl, .separator, fun _ => rfl⟩
        (.primary (.term 2)) (.primary (.term 3)))), .primary (.term 4)]) "n"))

theorem difference_wellBracketed : difference.WellBracketed := by
  simp [difference, Expression.WellBracketed, Primary.WellBracketed, ArgumentsWellBracketed,
    Expression.hasBareSeparator, Expression.leftSpine, Expression.rightSpine, negation,
    subtraction, listing, Operator.yieldsTo]

end Sample

open Sample in
theorem toPostfix_tokens_difference :
    toPostfix (some listing)
        [.twoWay negation subtraction, .term 1, .twoWay negation subtraction, .function total,
          .opening, .opening, .term 2, .separator, .term 3, .closing, .separator, .term 4,
          .closing, .comment "n"] =
      [.term 1, .operator negation, .term 2, .term 3, .operator listing, .term 4, .arity 2,
        .function total, .comment "n", .operator subtraction] :=
  toPostfix_tokens difference difference_wellBracketed

end FormulaEngine
