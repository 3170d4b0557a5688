import FormulaEngine.Grammar.Postfix

/-!
# Expressions

Formulas as trees, in the form they are written in: with the brackets that a writer put and with
the sign chosen for every operator. Each tree has the tokens it is written as and the instructions
it stands for.
-/
namespace FormulaEngine

/-- An operator before its operand, and the one its sign stands for between operands, if any. -/
structure PrefixSign (V : Type) where
  op : Operator V
  isPrefix : op.isPrefix = true
  between? : Option (Operator V)

inductive InfixForm (V : Type) where
  | word
  /-- The sign stands for `unary` where an operand is to begin. -/
  | twoWay (unary : Operator V)
  | separator

/-- An operator between its operands; a separator can stand for the list operator only. -/
structure InfixSign (listOperator : Option (Operator V)) where
  op : Operator V
  notPrefix : op.isPrefix = false
  form : InfixForm V
  separates : ∀ _ : form matches .separator, listOperator = some op

variable {V : Type} {listOperator : Option (Operator V)}

def PrefixSign.token (s : PrefixSign V) : Token V :=
  match s.between? with
  | none => .operator s.op
  | some binary => .twoWay s.op binary

def InfixSign.token (s : InfixSign listOperator) : Token V :=
  match s.form with
  | .word => .operator s.op
  | .twoWay unary => .twoWay unary s.op
  | .separator => .separator

def InfixSign.isSeparator (s : InfixSign listOperator) : Bool :=
  match s.form with
  | .separator => true
  | _ => false

mutual

inductive Primary (listOperator : Option (Operator V)) where
  | term (v : V)
  | reference (r : Reference)
  | bracketed (e : Expression listOperator)
  | call (f : FunctionSymbol V) (arguments : List (Expression listOperator))
  | annotated (subject : Primary listOperator) (label : String)

inductive Expression (listOperator : Option (Operator V)) where
  | primary (p : Primary listOperator)
  | prefixed (s : PrefixSign V) (operand : Expression listOperator)
  | infixed (s : InfixSign listOperator) (left right : Expression listOperator)

end

mutual

def Primary.tokens : Primary listOperator → List (Token V)
  | .term v => [.term v]
  | .reference r => [.reference r]
  | .bracketed e => .opening :: (e.tokens ++ [.closing])
  | .call f arguments => .function f :: .opening :: (argumentTokens arguments ++ [.closing])
  | .annotated subject label => subject.tokens ++ [.comment label]

def Expression.tokens : Expression listOperator → List (Token V)
  | .primary p => p.tokens
  | .prefixed s operand => s.token :: operand.tokens
  | .infixed s left right => left.tokens ++ s.token :: right.tokens

def argumentTokens : List (Expression listOperator) → List (Token V)
  | [] => []
  | e :: es => e.tokens ++ furtherTokens es

def furtherTokens : List (Expression listOperator) → List (Token V)
  | [] => []
  | e :: es => .separator :: (e.tokens ++ furtherTokens es)

end

/-- A call takes the number of its arguments from the stack if that is not fixed. -/
def callCode (f : FunctionSymbol V) (count : Nat) : List (Instruction V) :=
  (if f.operation.isVariadic then [.arity count] else []) ++ [.function f]

mutual

/-- Operands in the order of writing, each node after its operands. -/
def Primary.postorder : Primary listOperator → List (Instruction V)
  | .term v => [.term v]
  | .reference r => [.reference r]
  | .bracketed e => e.postorder
  | .call f arguments => argumentsPostorder arguments ++ callCode f arguments.length
  | .annotated subject label => subject.postorder ++ [.comment label]

def Expression.postorder : Expression listOperator → List (Instruction V)
  | .primary p => p.postorder
  | .prefixed s operand => operand.postorder ++ [.operator s.op]
  | .infixed s left right => left.postorder ++ right.postorder ++ [.operator s.op]

def argumentsPostorder : List (Expression listOperator) → List (Instruction V)
  | [] => []
  | e :: es => e.postorder ++ argumentsPostorder es

end

namespace Expression

/-- The operators whose left operand begins where the expression does. -/
def leftSpine : Expression listOperator → List (Operator V)
  | primary _ => []
  | prefixed _ _ => []
  | infixed s left _ => s.op :: left.leftSpine

/-- The operators whose last operand ends where the expression does, the outermost one first. -/
def rightSpine : Expression listOperator → List (Operator V)
  | primary _ => []
  | prefixed s operand => s.op :: operand.rightSpine
  | infixed s _ right => s.op :: right.rightSpine

/-- A separator stands for an operator outside of all brackets. -/
def hasBareSeparator : Expression listOperator → Bool
  | primary _ => false
  | prefixed _ operand => operand.hasBareSeparator
  | infixed s left right => s.isSeparator || left.hasBareSeparator || right.hasBareSeparator

end Expression

mutual

def Primary.WellBracketed : Primary listOperator → Prop
  | .term _ => True
  | .reference _ => True
  | .bracketed e => e.WellBracketed
  | .call _ arguments => ArgumentsWellBracketed arguments
  | .annotated subject _ => subject.WellBracketed

/-- Every operator keeps its operands: an operator that comes after an operand completes those on
its right spine, and none on the left spine of an operand reaches for what comes before it. -/
def Expression.WellBracketed : Expression listOperator → Prop
  | .primary p => p.WellBracketed
  | .prefixed s operand =>
    operand.WellBracketed ∧ ∀ op ∈ operand.leftSpine, op.yieldsTo s.op = false
  | .infixed s left right =>
    left.WellBracketed ∧ right.WellBracketed ∧
      (∀ op ∈ left.rightSpine, s.op.yieldsTo op = true) ∧
      ∀ op ∈ right.leftSpine, op.yieldsTo s.op = false

/-- Among arguments a separator is no operator. -/
def ArgumentsWellBracketed : List (Expression listOperator) → Prop
  | [] => True
  | e :: es => e.WellBracketed ∧ e.hasBareSeparator = false ∧ ArgumentsWellBracketed es

end

end FormulaEngine
