import FormulaEngine.Program.Basic

/-!
# Tokens

What the text of a formula is cut into before it is put in postfix order.
-/
namespace FormulaEngine

inductive Token (V : Type) where
  | term (v : V)
  | reference (r : Reference)
  | operator (op : Operator V)
  /-- A symbol that stands for an operator before or between operands. -/
  | twoWay (unary binary : Operator V)
  | function (f : FunctionSymbol V)
  | comment (label : String)
  | opening
  | closing
  | separator

namespace Token

variable {V : Type}

/-- No operand ends with what comes before the next token. -/
def startsOperand : Option (Token V) → Bool
  | none => true
  | some (.operator _) => true
  | some (.twoWay _ _) => true
  | some .opening => true
  | some .separator => true
  | _ => false

def describe (inspect : V → String) : Token V → String
  | .term v => s!"Term({inspect v})"
  | .reference r => s!"Variable({r.key})"
  | .operator op => s!"Operator({op.symbol})"
  | .twoWay _ binary => s!"BiOperator({binary.symbol})"
  | .function f => s!"Function({f.name})"
  | .comment label => s!"Comment({label})"
  | .opening => "("
  | .closing => ")"
  | .separator => ","

end Token

end FormulaEngine
