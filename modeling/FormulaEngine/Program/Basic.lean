import FormulaEngine.Error

/-!
# Programs

A compiled formula is a list of instructions in postfix order, over any type of operands.
-/
namespace FormulaEngine

abbrev Outcome (V : Type) := Except ResolveError V

/-- What an operator or a function does, by the number of its operands. -/
inductive Operation (V : Type) where
  | nullary (f : Outcome V)
  | unary (f : V → Outcome V)
  | binary (f : V → V → Outcome V)
  | ternary (f : V → V → V → Outcome V)
  | variadic (f : List V → Outcome V)

namespace Operation

variable {V : Type}

def arity? : Operation V → Option Nat
  | nullary _ => some 0
  | unary _ => some 1
  | binary _ => some 2
  | ternary _ => some 3
  | variadic _ => none

def isVariadic (c : Operation V) : Bool := c.arity?.isNone

end Operation

inductive Associativity where
  | left
  | right
  deriving DecidableEq, Repr

structure Operator (V : Type) where
  symbol : String
  precedence : Nat
  associativity : Associativity
  operation : Operation V

namespace Operator

variable {V : Type}

/-- An operator of one operand stands before it. -/
def isPrefix (op : Operator V) : Bool := op.operation.arity? == some 1

/-- Coming after `top`, the operator leaves to it the operand between them. -/
def yieldsTo (op top : Operator V) : Bool :=
  op.precedence < top.precedence ||
    (op.associativity == .left && op.precedence == top.precedence)

end Operator

structure FunctionSymbol (V : Type) where
  name : String
  operation : Operation V

/-- A key as it is written in a formula, with the text before and after it. -/
structure Reference where
  opening : String
  key : String
  closing : String
  deriving DecidableEq, Repr

inductive Instruction (V : Type) where
  | term (v : V)
  | reference (r : Reference)
  | operator (op : Operator V)
  | function (f : FunctionSymbol V)
  /-- The number of arguments of the variadic call that follows. -/
  | arity (n : Nat)
  | comment (label : String)

structure Program (V : Type) where
  code : List (Instruction V)
  text : String

/-- What a reference stands for: a value, or a program that is run in its place. -/
inductive Meaning (V : Type) where
  | value (v : V)
  | splice (p : Program V)

abbrev Resolver (V : Type) := Reference → Outcome (Meaning V)

class Operand (V : Type) where
  ofInteger : String → V
  ofDecimal : String → V
  ofText : String → V
  /-- A literal that was written between the two marks. -/
  quoted : V → String → String → V
  annotate : V → String → V

def Instruction.describe {V : Type} (inspect : V → String) : Instruction V → String
  | .term v => s!"Term({inspect v})"
  | .reference r => s!"Variable({r.key})"
  | .operator op => s!"Operator({op.symbol})"
  | .function f => s!"Function({f.name})"
  | .arity n => s!"Arity({n})"
  | .comment label => s!"Comment({label})"

end FormulaEngine
