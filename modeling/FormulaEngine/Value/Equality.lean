import FormulaEngine.Value.Basic

/-!
# Equality of values

The right-hand side is read the way the left-hand side is kept: as text beside a text, as an integer
beside an integer, and so on. The relation is therefore not symmetric. Null equals only null, and
nothing equals what is not a number.
-/
namespace FormulaEngine

/-- Equality with a value that is neither null nor not a number. -/
def Scalar.matches (s : Scalar) (w : Value) : Bool :=
  match s with
  | .text a => a == w.display
  | .integer a =>
    match w.integer? with
    | .ok b => a == b
    | .error _ => false
  | .decimal a =>
    match w.decimal? with
    | .ok b => Decimal.isClose a b
    | .error _ => false
  | .boolean a => a == w.truth
  | .null => false
  | .nan => false
  | .roll count sides =>
    match w.content with
    | .scalar (.roll count' sides') => count == count' && sides == sides'
    | _ =>
      match s.decimal?, w.decimal? with
      | .ok a, .ok b => Decimal.isClose a b
      | _, _ => false

def Scalar.equals (s : Scalar) (w : Value) : Bool :=
  match s, w.isNull with
  | .null, b => b
  | _, true => false
  | s, false => !s.isNaN && !w.isNaN && w.hasValue && s.matches w

namespace Value

mutual

def equals : Value → Value → Bool
  | .scalar s, w => s.equals w
  | .list vs, w =>
    match w.content with
    | .list ws => equalsEach vs ws
    | .scalar s => !w.isNull && !s.isNaN && equalsLast vs w
  | .named subject _, w => subject.equals w
  | .quoted subject _ _, w => subject.equals w

def equalsEach : List Value → List Value → Bool
  | [], [] => true
  | v :: vs, w :: ws => v.equals w && equalsEach vs ws
  | _, _ => false

/-- Beside a scalar a list stands for its last element. -/
def equalsLast : List Value → Value → Bool
  | [], _ => false
  | [v], w => v.equals w
  | _ :: v :: vs, w => equalsLast (v :: vs) w

end

end Value

end FormulaEngine
