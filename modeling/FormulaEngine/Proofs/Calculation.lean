import FormulaEngine.Proofs.Execution
import FormulaEngine.Proofs.Expression
import FormulaEngine.Trace

/-!
# Calculation

The value of an expression, computed by recursion on the tree, and not on a stack. Running the
instructions that an expression stands for comes to the same, on top of any other stack and with
the same failure.
-/
namespace FormulaEngine

theorem bind_eq_error {α β : Type} {x : Outcome α} {f : α → Outcome β} {e : ResolveError} :
    (x >>= f) = .error e ↔ x = .error e ∨ ∃ a, x = .ok a ∧ f a = .error e := by
  cases x <;> simp

theorem map_eq_error {α β : Type} {x : Outcome α} {f : α → β} {e : ResolveError} :
    x.map f = .error e ↔ x = .error e := by
  cases x <;> simp [Except.map]

namespace Operation

variable {V : Type}

def Takes (o : Operation V) (n : Nat) : Prop := ∀ arity, o.arity? = some arity → n = arity

/-- What the operation makes of operands in the order of writing. -/
def apply : Operation V → List V → Outcome V
  | nullary f, [] => f
  | unary f, [a] => f a
  | binary f, [a, b] => f a b
  | ternary f, [a, b, c] => f a b c
  | variadic f, vs => f vs
  | _, vs => .error (.invalidProgram vs.length)

theorem invoke_values {o : Operation V} {vs : List V} (h : o.arity? = some vs.length)
    (name : String) (stack : Stack V) :
    o.invoke name (vs.reverse.map .value ++ stack) =
      (o.apply vs).map fun v => .value v :: stack := by
  cases o with
  | nullary f =>
    match vs, h with
    | [], _ =>
      change (f >>= fun v => .ok (.value v :: stack)) = f.map _
      cases f <;> rfl
  | unary f =>
    match vs, h with
    | [a], _ =>
      change (f a >>= fun v => .ok (.value v :: stack)) = (f a).map _
      cases f a <;> rfl
  | binary f =>
    match vs, h with
    | [a, b], _ =>
      change (f a b >>= fun v => .ok (.value v :: stack)) = (f a b).map _
      cases f a b <;> rfl
  | ternary f =>
    match vs, h with
    | [a, b, c], _ =>
      change (f a b c >>= fun v => .ok (.value v :: stack)) = (f a b c).map _
      cases f a b c <;> rfl
  | variadic f => cases h

theorem popArguments_values (name : String) (position : Nat) (vs later : List V)
    (stack : Stack V) :
    popArguments name position vs.length later (vs.map .value ++ stack) =
      .ok (vs.reverse ++ later, stack) := by
  induction vs generalizing position later with
  | nil => rfl
  | cons v vs ih =>
    simp only [List.length_cons, List.map_cons, List.cons_append, popArguments, popOperand, ih]
    simp

theorem invoke_variadic (f : List V → Outcome V) (name : String) (vs : List V) (stack : Stack V) :
    (variadic f).invoke name (.arity vs.length :: (vs.reverse.map .value ++ stack)) =
      (f vs).map fun v => .value v :: stack := by
  have hpop := popArguments_values name 1 vs.reverse [] stack
  rw [List.length_reverse, List.reverse_reverse, List.append_nil] at hpop
  change (popArguments name 1 vs.length [] (vs.reverse.map .value ++ stack) >>= fun p =>
    f p.1 >>= fun v => .ok (.value v :: p.2)) = _
  rw [hpop, ok_bind]
  cases f vs <;> rfl

end Operation

section Instructions

variable {V : Type} {lookup : Reference → Outcome V} {scope : Resolver V}
  {code first second : List (Instruction V)} {e : ResolveError}

/-- The references in the code stand for values, if they do not fail. -/
def Resolves (scope : Resolver V) (lookup : Reference → Outcome V)
    (code : List (Instruction V)) : Prop :=
  ∀ r, .reference r ∈ code → scope r = (lookup r).map .value

theorem resolves_append :
    Resolves scope lookup (first ++ second) ↔
      Resolves scope lookup first ∧ Resolves scope lookup second := by
  simp only [Resolves, List.mem_append]
  constructor
  · intro h
    exact ⟨fun r hr => h r (.inl hr), fun r hr => h r (.inr hr)⟩
  · rintro ⟨hfirst, hsecond⟩ r (hr | hr)
    · exact hfirst r hr
    · exact hsecond r hr

def Instruction.operation? : Instruction V → Option (Operation V)
  | .operator op => some op.operation
  | .function f => some f.operation
  | _ => none

/-- The failure is that of a reference in the code, or that of an operation in it on operands that
it can be given. -/
def FailsWithin (lookup : Reference → Outcome V) (code : List (Instruction V))
    (e : ResolveError) : Prop :=
  (∃ r, .reference r ∈ code ∧ lookup r = .error e) ∨
    ∃ i ∈ code, ∃ o vs, i.operation? = some o ∧ o.Takes vs.length ∧ o.apply vs = .error e

theorem FailsWithin.mono (h : FailsWithin lookup first e) (within : first ⊆ second) :
    FailsWithin lookup second e := by
  rcases h with ⟨r, hr, hfails⟩ | ⟨i, hi, hfails⟩
  · exact .inl ⟨r, within hr, hfails⟩
  · exact .inr ⟨i, within hi, hfails⟩

theorem FailsWithin.append_right (h : FailsWithin lookup code e) (more : List (Instruction V)) :
    FailsWithin lookup (code ++ more) e :=
  h.mono (List.subset_append_left _ _)

theorem FailsWithin.append_left (h : FailsWithin lookup code e) (before : List (Instruction V)) :
    FailsWithin lookup (before ++ code) e :=
  h.mono (List.subset_append_right _ _)

theorem failsWithin_operator {op : Operator V} (vs : List V)
    (takes : op.operation.arity? = some vs.length) (fails : op.operation.apply vs = .error e) :
    FailsWithin lookup [.operator op] e := by
  refine .inr ⟨.operator op, List.mem_cons_self, op.operation, vs, rfl, ?_, fails⟩
  intro n hn
  exact Option.some.inj (takes.symm.trans hn)

theorem failsWithin_callCode {f : FunctionSymbol V} {vs : List V} {count : Nat}
    (takes : f.operation.Takes vs.length) (fails : f.operation.apply vs = .error e) :
    FailsWithin lookup (callCode f count) e := by
  have hmem : .function f ∈ callCode f count := List.mem_append_right _ List.mem_cons_self
  exact .inr ⟨.function f, hmem, f.operation, vs, rfl, takes, fails⟩

end Instructions

section Running

variable {V : Type} [Operand V] {scopes : List (Resolver V)} {vs : List V}

theorem execute_operator {op : Operator V} (vs : List V)
    (h : op.operation.arity? = some vs.length) (stack : Stack V) :
    execute scopes [.operator op] (vs.reverse.map .value ++ stack) =
      (op.operation.apply vs).map fun v => .value v :: stack := by
  apply execute_operation
  rw [← Operation.invoke_values h op.symbol]
  rfl

theorem execute_callCode {f : FunctionSymbol V} (h : f.operation.Takes vs.length)
    (stack : Stack V) :
    execute scopes (callCode f vs.length) (vs.reverse.map .value ++ stack) =
      (f.operation.apply vs).map fun v => .value v :: stack := by
  cases harity : f.operation.arity? with
  | some n =>
    obtain rfl := h n harity
    have hfixed : f.operation.isVariadic = false := by simp [Operation.isVariadic, harity]
    rw [callCode, hfixed, if_neg Bool.false_ne_true, List.nil_append]
    apply execute_operation
    rw [← Operation.invoke_values harity f.name]
    rfl
  | none =>
    obtain ⟨name, operation⟩ := f
    cases operation with
    | variadic g =>
      refine (execute_cons_goOn rfl _).trans (execute_operation ?_)
      change (((Operation.variadic g).invoke name _).map _) = _
      rw [Operation.invoke_variadic]
      rfl
    | _ => cases harity

end Running

variable {V : Type} [Operand V] {listOperator : Option (Operator V)}

section Value

variable (lookup : Reference → Outcome V)

mutual

/-- The value of what needs no brackets; a comment is put on the value of its subject. -/
def Primary.value : Primary listOperator → Outcome V
  | .term v => .ok v
  | .reference r => lookup r
  | .bracketed e => e.value
  | .call f arguments => argumentValues arguments >>= f.operation.apply
  | .annotated subject label => subject.value.map fun v => Operand.annotate v label

/-- Operands are computed in the order of writing, up to the first failure. -/
def Expression.value : Expression listOperator → Outcome V
  | .primary p => p.value
  | .prefixed s operand => do
    let a ← operand.value
    s.op.operation.apply [a]
  | .infixed s left right => do
    let a ← left.value
    let b ← right.value
    s.op.operation.apply [a, b]

def argumentValues : List (Expression listOperator) → Outcome (List V)
  | [] => .ok []
  | e :: es => do
    let v ← e.value
    let vs ← argumentValues es
    return v :: vs

end

end Value

mutual

/-- Every operator that stands between operands takes two of them, and every function has as many
arguments as it can be given. -/
def Primary.Saturated : Primary listOperator → Prop
  | .term _ => True
  | .reference _ => True
  | .bracketed e => e.Saturated
  | .call f arguments => f.operation.Takes arguments.length ∧ ArgumentsSaturated arguments
  | .annotated subject _ => subject.Saturated

def Expression.Saturated : Expression listOperator → Prop
  | .primary p => p.Saturated
  | .prefixed _ operand => operand.Saturated
  | .infixed s left right => s.op.operation.arity? = some 2 ∧ left.Saturated ∧ right.Saturated

def ArgumentsSaturated : List (Expression listOperator) → Prop
  | [] => True
  | e :: es => e.Saturated ∧ ArgumentsSaturated es

end

theorem length_of_argumentValues {lookup : Reference → Outcome V}
    {es : List (Expression listOperator)} {vs : List V}
    (h : argumentValues lookup es = .ok vs) : vs.length = es.length := by
  induction es generalizing vs with
  | nil =>
    cases h
    rfl
  | cons e es ih =>
    obtain ⟨v, _, h⟩ := bind_eq_ok.1 h
    obtain ⟨vs', hvs, h⟩ := bind_eq_ok.1 h
    cases h
    rw [List.length_cons, List.length_cons, ih hvs]

section Execution

variable {lookup : Reference → Outcome V} {scope : Resolver V} (deeper : List (Resolver V))

theorem execute_value (scopes : List (Resolver V)) (v : V) (stack : Stack V) :
    execute scopes [.term v] stack = .ok (.value v :: stack) :=
  execute_operation rfl

theorem execute_resolved {r : Reference} (h : scope r = (lookup r).map .value) (stack : Stack V) :
    execute (scope :: deeper) [.reference r] stack =
      (lookup r).map fun v => .value v :: stack := by
  rw [execute_reference, h]
  cases lookup r <;> rfl

theorem execute_comment (scopes : List (Resolver V)) (label : String) (v : V) (stack : Stack V) :
    execute scopes [.comment label] (.value v :: stack) =
      .ok (.value (Operand.annotate v label) :: stack) :=
  execute_operation rfl

mutual

theorem execute_primary (p : Primary listOperator) (h : p.Saturated)
    (resolves : Resolves scope lookup p.postorder) (stack : Stack V) :
    execute (scope :: deeper) p.postorder stack =
      (p.value lookup).map fun v => .value v :: stack := by
  cases p with
  | term v => exact execute_value _ v stack
  | reference r => exact execute_resolved deeper (resolves r List.mem_cons_self) stack
  | bracketed e => exact execute_expression e h resolves stack
  | call f arguments =>
    have harguments := execute_arguments arguments h.2 (resolves_append.1 resolves).1 stack
    rw [Primary.postorder, execute_append, harguments, Primary.value]
    cases hvalues : argumentValues lookup arguments with
    | error e => rfl
    | ok vs =>
      have hlength := length_of_argumentValues hvalues
      exact hlength ▸ execute_callCode (hlength ▸ h.1) stack
  | annotated subject label =>
    have hsubject := execute_primary subject h (resolves_append.1 resolves).1 stack
    rw [Primary.postorder, execute_append, hsubject, Primary.value]
    cases subject.value lookup with
    | error e => rfl
    | ok v => exact execute_comment _ label v stack

/-- The instructions of an expression put its value on the stack, whatever is below. -/
theorem execute_expression (e : Expression listOperator) (h : e.Saturated)
    (resolves : Resolves scope lookup e.postorder) (stack : Stack V) :
    execute (scope :: deeper) e.postorder stack =
      (e.value lookup).map fun v => .value v :: stack := by
  cases e with
  | primary p => exact execute_primary p h resolves stack
  | prefixed s operand =>
    have hoperand := execute_expression operand h (resolves_append.1 resolves).1 stack
    have hone : s.op.operation.arity? = some 1 := eq_of_beq s.isPrefix
    rw [Expression.postorder, execute_append, hoperand, Expression.value]
    cases operand.value lookup with
    | error e => rfl
    | ok a => exact execute_operator [a] hone stack
  | infixed s left right =>
    obtain ⟨resolves, -⟩ := resolves_append.1 resolves
    obtain ⟨hl, hr⟩ := resolves_append.1 resolves
    have hleft := execute_expression left h.2.1 hl stack
    rw [Expression.postorder, execute_append, execute_append, hleft, Expression.value]
    cases left.value lookup with
    | error e => rfl
    | ok a =>
      have hright := execute_expression right h.2.2 hr (.value a :: stack)
      change (execute _ right.postorder (.value a :: stack) >>= _) = _
      rw [hright]
      cases right.value lookup with
      | error e => rfl
      | ok b => exact execute_operator [a, b] h.1 stack

theorem execute_arguments (es : List (Expression listOperator)) (h : ArgumentsSaturated es)
    (resolves : Resolves scope lookup (argumentsPostorder es)) (stack : Stack V) :
    execute (scope :: deeper) (argumentsPostorder es) stack =
      (argumentValues lookup es).map fun vs => vs.reverse.map .value ++ stack := by
  cases es with
  | nil => exact execute_nil _ _
  | cons e es =>
    obtain ⟨he, hes⟩ := resolves_append.1 resolves
    have hfirst := execute_expression e h.1 he stack
    rw [argumentsPostorder, execute_append, hfirst, argumentValues]
    cases e.value lookup with
    | error e => rfl
    | ok v =>
      have hrest := execute_arguments es h.2 hes (.value v :: stack)
      change execute _ (argumentsPostorder es) (.value v :: stack) = _
      rw [hrest]
      cases argumentValues lookup es with
      | error e => rfl
      | ok vs => simp [Except.map, pure, Except.pure]

end

end Execution

section Failing

variable {lookup : Reference → Outcome V} {e : ResolveError}

mutual

theorem Primary.failsWithin (p : Primary listOperator) (h : p.Saturated)
    (fails : p.value lookup = .error e) : FailsWithin lookup p.postorder e := by
  cases p with
  | term v => cases fails
  | reference r => exact .inl ⟨r, List.mem_cons_self, fails⟩
  | bracketed inner => exact inner.failsWithin h fails
  | call f arguments =>
    rcases bind_eq_error.1 fails with hfails | ⟨vs, hvs, hfails⟩
    · exact (arguments_failWithin arguments h.2 hfails).append_right _
    · have htakes : f.operation.Takes vs.length := length_of_argumentValues hvs ▸ h.1
      exact (failsWithin_callCode htakes hfails).append_left _
  | annotated subject label =>
    exact (subject.failsWithin h (map_eq_error.1 fails)).append_right _

theorem Expression.failsWithin (x : Expression listOperator) (h : x.Saturated)
    (fails : x.value lookup = .error e) : FailsWithin lookup x.postorder e := by
  cases x with
  | primary p => exact p.failsWithin h fails
  | prefixed s operand =>
    rcases bind_eq_error.1 fails with hfails | ⟨a, _, hfails⟩
    · exact (operand.failsWithin h hfails).append_right _
    · have hone : s.op.operation.arity? = some 1 := eq_of_beq s.isPrefix
      exact (failsWithin_operator [a] hone hfails).append_left _
  | infixed s left right =>
    rcases bind_eq_error.1 fails with hfails | ⟨a, _, hfails⟩
    · exact ((left.failsWithin h.2.1 hfails).append_right _).append_right _
    · rcases bind_eq_error.1 hfails with hfails | ⟨b, _, hfails⟩
      · exact ((right.failsWithin h.2.2 hfails).append_left _).append_right _
      · exact (failsWithin_operator [a, b] h.1 hfails).append_left _

theorem arguments_failWithin (es : List (Expression listOperator)) (h : ArgumentsSaturated es)
    (fails : argumentValues lookup es = .error e) :
    FailsWithin lookup (argumentsPostorder es) e := by
  cases es with
  | nil => cases fails
  | cons x es =>
    rcases bind_eq_error.1 fails with hfails | ⟨v, _, hfails⟩
    · exact (x.failsWithin h.1 hfails).append_right _
    · rcases bind_eq_error.1 hfails with hfails | ⟨vs, _, hfails⟩
      · exact (arguments_failWithin es h.2 hfails).append_left _
      · cases hfails

end

end Failing

theorem Expression.evaluate_eq_value {x : Expression listOperator} (saturated : x.Saturated)
    {scope : Resolver V} {lookup : Reference → Outcome V}
    (resolves : Resolves scope lookup x.postorder) (deeper : List (Resolver V)) (text : String) :
    (Program.mk x.postorder text).evaluate (scope :: deeper) = x.value lookup := by
  rw [evaluate_eq_execute, execute_expression deeper x saturated resolves]
  cases x.value lookup <;> rfl

/-- Running the instructions of an expression is computing its value: the first failure in the
order of writing is the failure of the run, and none is made by the run itself. -/
theorem Expression.evaluate_postorder {x : Expression listOperator} (saturated : x.Saturated)
    {scope : Resolver V} {lookup : Reference → Outcome V}
    (resolves : Resolves scope lookup x.postorder) (deeper : List (Resolver V)) (text : String) :
    (Program.mk x.postorder text).evaluate (scope :: deeper) = x.value lookup ∧
      ∀ e, x.value lookup = .error e → FailsWithin lookup x.postorder e := by
  refine ⟨x.evaluate_eq_value saturated resolves deeper text, ?_⟩
  intro e fails
  exact x.failsWithin saturated fails

/-- A call with a comment on it, and the operator of the given name between the call and a term. -/
def Trace.commentedCall (word : String) : Expression (none : Option (Operator Trace)) :=
  let call : Primary none := .call ⟨"f", .variadic (apply "f")⟩
    [.primary (.reference ⟨"@", "k", ""⟩),
      .prefixed ⟨⟨"-", 4, .left, .unary fun a => apply "-" [a]⟩, rfl, none⟩
        (.primary (.term ⟨"i1"⟩))]
  .infixed ⟨⟨word, 2, .left, .binary fun a b => apply word [a, b]⟩, rfl, .word, nofun⟩
    (.primary (.annotated call "note")) (.primary (.term ⟨"i2"⟩))

theorem evaluate_commentedCall :
    (Program.mk (Trace.commentedCall "+").postorder "").evaluate [Trace.resolver []] =
        .ok ⟨"(+ (f ?k (- i1))[note] i2)"⟩ ∧
      (Program.mk (Trace.commentedCall "fail").postorder "").evaluate [Trace.resolver []] =
        .error (.notANumber "fail") := by
  have saturated (word : String) : (Trace.commentedCall word).Saturated :=
    ⟨rfl, ⟨nofun, trivial, trivial, trivial⟩, trivial⟩
  have resolves (word : String) : Resolves (Trace.resolver []) (fun r => .ok ⟨"?" ++ r.key⟩)
      (Trace.commentedCall word).postorder := fun _ _ => rfl
  constructor
  · rw [(Expression.evaluate_postorder (saturated "+") (resolves "+") [] "").1]
    rfl
  · rw [(Expression.evaluate_postorder (saturated "fail") (resolves "fail") [] "").1]
    rfl

end FormulaEngine
