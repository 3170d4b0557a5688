import FormulaEngine.Context.Resolve
import FormulaEngine.Formula.Arithmetic

/-!
# Formulas

Reading a text as a formula, and evaluating it in a context.
-/
namespace FormulaEngine

namespace Formula

def grammar (o : Options) : Except Conflict (Grammar Value) :=
  Grammar.build (rules o (arithmetic o.strict))

/-- A blank text is an empty binding, any other text a formula. -/
def parse (o : Options) (text : String) : Except Cause Binding :=
  if Text.isBlankText text then .ok .empty
  else
    match grammar o with
    | .error e => .error (.conflict e)
    | .ok g =>
      match g.compile text with
      | .error e => .error (.parse e)
      | .ok p => .ok (.formula p)

def evaluate (o : Options) (ctx : Context) (text : String) : Except Report Value :=
  match parse o text with
  | .error cause => .error ⟨text, cause⟩
  | .ok b =>
    match b.resolve ctx with
    | .error e => .error ⟨text, .resolve e⟩
    | .ok v => .ok v

end Formula

def Binding.report (b : Binding) (ctx : Context) : Except Report Value :=
  match b.resolve ctx with
  | .error e => .error ⟨b.formulaText, .resolve e⟩
  | .ok v => .ok v

end FormulaEngine
