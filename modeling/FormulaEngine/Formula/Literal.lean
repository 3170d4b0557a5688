import FormulaEngine.Program.Basic
import FormulaEngine.Value.Basic

/-!
# Literals

Values as operands of formulas: how numbers and texts are read, and what quotation marks and
comments do.
-/
namespace FormulaEngine.Value

/-- A text that spells no number gives NaN. -/
def ofDecimalText (s : String) : Value :=
  match Decimal.read? s.toList with
  | some x => .decimal x
  | none => .nan

/-- An integer that does not fit becomes a decimal. -/
def ofIntegerText (s : String) : Value :=
  match Integer.read? s.toList with
  | some n => .integer n
  | none => ofDecimalText s

instance : Operand Value where
  ofInteger := ofIntegerText
  ofDecimal := ofDecimalText
  ofText := .text
  quoted := .quoted
  annotate := .named

end FormulaEngine.Value
