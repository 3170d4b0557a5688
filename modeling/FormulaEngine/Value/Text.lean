import FormulaEngine.Value.Basic

/-!
# The texts of a value

A value is written as it would stand in a formula, or in a form for inspection that shows its shape.
-/
namespace FormulaEngine.Value

mutual

/-- Keeps labels and quotation marks; a list is written with commas, the outermost ones without
brackets. -/
def formulaText : Value → String
  | .scalar .null => "null"
  | .scalar s => s.display
  | .list items => ",".intercalate (formulaTexts items)
  | .named subject label => subject.formulaText ++ "[" ++ label ++ "]"
  | .quoted subject opening closing => opening ++ subject.display ++ closing

def formulaTexts : List Value → List String
  | [] => []
  | v :: vs => v.formulaText :: formulaTexts vs

end

mutual

/-- Shows text between quotation marks, with nothing escaped, and lists between brackets. -/
def inspect : Value → String
  | .scalar (.text s) => "\"" ++ s ++ "\""
  | .scalar .null => "None"
  | .scalar s => s.display
  | .list items => "[" ++ ", ".intercalate (inspections items) ++ "]"
  | .named subject label => subject.inspect ++ "[" ++ label ++ "]"
  | .quoted subject opening closing => opening ++ subject.inspect ++ closing

def inspections : List Value → List String
  | [] => []
  | v :: vs => v.inspect :: inspections vs

end

theorem formulaTexts_eq_map (vs : List Value) : formulaTexts vs = vs.map formulaText := by
  induction vs with
  | nil => rfl
  | cons v vs ih => simp [formulaTexts, ih]

end FormulaEngine.Value
