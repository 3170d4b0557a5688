import FormulaEngine.Formula.Literal
import FormulaEngine.Program.Machine
import FormulaEngine.Value.Text

/-!
# Bindings

What a key can be bound to: a value, a formula that is evaluated when the key is read, or a list of
bindings.
-/
namespace FormulaEngine

inductive Binding where
  | empty
  | value (v : Value)
  | formula (p : Program Value)
  | list (items : List Binding)

namespace Binding

instance : Inhabited Binding := ⟨empty⟩

def isEmpty : Binding → Bool
  | empty => true
  | _ => false

mutual

/-- The text a formula was read from, or the formula that writes a value. -/
def formulaText : Binding → String
  | empty => ""
  | value v => v.formulaText
  | formula p => p.text
  | list items => ",".intercalate (formulaTexts items)

def formulaTexts : List Binding → List String
  | [] => []
  | b :: bs => b.formulaText :: formulaTexts bs

end

mutual

/-- The value a binding stands for, where formulas use the given resolvers. -/
def resolveWith (scopes : List (Resolver Value)) : Binding → Outcome Value
  | empty => .ok .null
  | value v => .ok v
  | formula p => p.evaluate scopes
  | list items =>
    match resolveAll scopes items with
    | .error e => .error e
    | .ok vs => .ok (.list vs)

def resolveAll (scopes : List (Resolver Value)) : List Binding → Outcome (List Value)
  | [] => .ok []
  | b :: bs =>
    match b.resolveWith scopes with
    | .error e => .error e
    | .ok v =>
      match resolveAll scopes bs with
      | .error e => .error e
      | .ok vs => .ok (v :: vs)

end

end Binding

end FormulaEngine
