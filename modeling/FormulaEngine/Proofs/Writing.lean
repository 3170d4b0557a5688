import FormulaEngine.Proofs.Words
import FormulaEngine.Symbol.Optimize

/-!
# Writing

The rules by which formulas are simplified, as one more interpretation of the words of the language.
-/
namespace FormulaEngine.Symbol

open Formula

def binary (op : BinaryOperator) (a b : Symbol) : Symbol :=
  match op with
  | .add => .math .add a b
  | .subtract => .math .subtract a b
  | .multiply => .math .multiply a b
  | .divide => .math .divide a b
  | .both => conjunction [a, b]
  | .either => disjunction [a, b]
  | _ => infix2 op.symbol op.precedence op.associativity a b

def functionN (f : VariadicFunction) (arguments : List Symbol) : Symbol :=
  match f with
  | .any => disjunction arguments
  | .all => conjunction arguments
  | _ => .atom (call f.name arguments)

/-- The words of the language as operations on symbols; none of them fails. -/
def writing : Interpretation Symbol where
  binary op a b := .ok (binary op a b)
  unary op a := .ok (prefix1 op.symbol op.precedence a)
  function1 f a := .ok (.atom (call f.name [a]))
  function3 f a b c := .ok (.atom (call f.name [a, b, c]))
  functionN f arguments := .ok (functionN f arguments)
  boolean := .boolean
  null := .atom "null"

end FormulaEngine.Symbol
