import FormulaEngine.Grammar.Basic

/-!
# The words of the formula language

The operators, functions and constants of formulas, apart from what they compute. An
interpretation gives them a meaning over some type of operands; the grammar is the same for all of
them.
-/
namespace FormulaEngine.Formula

inductive BinaryOperator where
  | list
  | power
  | multiply
  | divide
  | add
  | subtract
  | dice
  | below
  | atMost
  | above
  | atLeast
  | equal
  | different
  | both
  | either
  deriving DecidableEq, Repr

namespace BinaryOperator

def symbol : BinaryOperator → String
  | list => ","
  | power => "^"
  | multiply => "*"
  | divide => "/"
  | add => "+"
  | subtract => "-"
  | dice => "d"
  | below => "<"
  | atMost => "<="
  | above => ">"
  | atLeast => ">="
  | equal => "=="
  | different => "!="
  | both => "AND"
  | either => "OR"

/-- Operators of a greater precedence bind their operands first. -/
def precedence : BinaryOperator → Nat
  | list | both | either => 1
  | add | subtract => 2
  | multiply | divide => 3
  | below | atMost | above | atLeast | equal | different => 3
  | power => 4
  | dice => 5

def associativity : BinaryOperator → Associativity
  | power => .right
  | _ => .left

end BinaryOperator

inductive UnaryOperator where
  | negate
  | not
  deriving DecidableEq, Repr

namespace UnaryOperator

def symbol : UnaryOperator → String
  | negate => "-"
  | not => "!"

def precedence : UnaryOperator → Nat
  | negate => 4
  | not => 4

end UnaryOperator

inductive UnaryFunction where
  | abs
  | floor
  | ceil
  | signed
  | ordinal
  | minEach
  | maxEach
  deriving DecidableEq, Repr

namespace UnaryFunction

def name : UnaryFunction → String
  | abs => "abs"
  | floor => "floor"
  | ceil => "ceil"
  | signed => "signed"
  | ordinal => "ordinal"
  | minEach => "mineach"
  | maxEach => "maxeach"

def all : List UnaryFunction := [abs, floor, ceil, signed, ordinal, minEach, maxEach]

end UnaryFunction

inductive TernaryFunction where
  | clamp
  | choose
  deriving DecidableEq, Repr

namespace TernaryFunction

def name : TernaryFunction → String
  | clamp => "clamp"
  | choose => "if"

def all : List TernaryFunction := [clamp, choose]

end TernaryFunction

inductive VariadicFunction where
  | min
  | max
  | sum
  | any
  | all
  | concat
  deriving DecidableEq, Repr

namespace VariadicFunction

def name : VariadicFunction → String
  | min => "min"
  | max => "max"
  | sum => "sum"
  | any => "any"
  | all => "all"
  | concat => "concat"

def every : List VariadicFunction := [min, max, sum, any, all, concat]

end VariadicFunction

/-- A meaning for every word, over operands of type `V`. -/
structure Interpretation (V : Type) where
  binary : BinaryOperator → V → V → Outcome V
  unary : UnaryOperator → V → Outcome V
  function1 : UnaryFunction → V → Outcome V
  function3 : TernaryFunction → V → V → V → Outcome V
  functionN : VariadicFunction → List V → Outcome V
  boolean : Bool → V
  null : V

namespace Interpretation

variable {V : Type}

def binaryOperator (i : Interpretation V) (op : BinaryOperator) : Operator V :=
  ⟨op.symbol, op.precedence, op.associativity, .binary (i.binary op)⟩

def unaryOperator (i : Interpretation V) (op : UnaryOperator) : Operator V :=
  ⟨op.symbol, op.precedence, .left, .unary (i.unary op)⟩

end Interpretation

structure Options where
  /-- Arithmetic with a text that is no number fails instead of giving NaN. -/
  strict : Bool := false
  ignoreBlanks : Bool := true
  deriving DecidableEq, Repr

variable {V : Type}

/-- The quotation marks; a backslash before the closing one escapes it. -/
def literalRules : List (Rule V) :=
  [ .literal "\"" "\"" (some "\\\""),
    .literal "'" "'" (some "\\'") ]

def operatorRules (i : Interpretation V) : List (Rule V) :=
  [ .operator (i.binaryOperator .power),
    .operator (i.binaryOperator .multiply),
    .operator (i.binaryOperator .divide),
    .operator (i.binaryOperator .add),
    .twoWay (i.unaryOperator .negate) (i.binaryOperator .subtract),
    .operator (i.unaryOperator .not),
    .operator (i.binaryOperator .dice),
    .operator (i.binaryOperator .below),
    .operator (i.binaryOperator .atMost),
    .operator (i.binaryOperator .above),
    .operator (i.binaryOperator .atLeast),
    .operator (i.binaryOperator .equal),
    .operator (i.binaryOperator .different),
    .operator (i.binaryOperator .both),
    .operator (i.binaryOperator .either) ]

def constantRules (i : Interpretation V) : List (Rule V) :=
  [ .constant "true" (i.boolean true),
    .constant "false" (i.boolean false),
    .constant "null" i.null ]

def functionRules (i : Interpretation V) : List (Rule V) :=
  (UnaryFunction.all.map fun f => .function ⟨f.name, .unary (i.function1 f)⟩) ++
  (TernaryFunction.all.map fun f => .function ⟨f.name, .ternary (i.function3 f)⟩) ++
  (VariadicFunction.every.map fun f => .function ⟨f.name, .variadic (i.functionN f)⟩)

def referenceRules : List (Rule V) :=
  [ .reference "@", .bracedReference "@\x7b" "\x7d", .comment "[" "]" ]

def rules (o : Options) (i : Interpretation V) : List (Rule V) :=
  (if o.ignoreBlanks then [.ignoreBlanks] else []) ++
  .listOperator (i.binaryOperator .list) :: literalRules ++ operatorRules i ++ constantRules i ++
  functionRules i ++ referenceRules

end FormulaEngine.Formula
