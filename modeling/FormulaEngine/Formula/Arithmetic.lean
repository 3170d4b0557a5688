import FormulaEngine.Formula.Flatten
import FormulaEngine.Formula.Vocabulary
import FormulaEngine.Value.Equality

/-!
# Computing with values

What the words of the formula language mean for values. Integers stay integers as long as the
exact result fits; everything else is computed with decimals.
-/
namespace FormulaEngine.Formula

/-- Arithmetic with what is no number gives NaN, unless it has to be strict. -/
def lenient (strict : Bool) : Outcome Value → Outcome Value
  | .error (.notANumber text) => if strict then .error (.notANumber text) else .ok .nan
  | outcome => outcome

/-- The exact integer if both operands are integers and it fits, otherwise the decimal. -/
def integral (exact : Int64 → Int64 → Option Int64) (decimal : Float → Float → Float)
    (a b : Value) : Outcome Value :=
  match (a.plainInteger?.bind fun x => b.plainInteger?.bind fun y => exact x y) with
  | some n => .ok (.integer n)
  | none => do
    let x ← a.decimal?
    let y ← b.decimal?
    return .decimal (decimal x y)

def add (a b : Value) : Outcome Value := integral Integer.add? (· + ·) a b

def subtract (a b : Value) : Outcome Value := integral Integer.subtract? (· - ·) a b

def multiply (a b : Value) : Outcome Value := integral Integer.multiply? (· * ·) a b

def power (a b : Value) : Outcome Value := integral Integer.power? Float.pow a b

def divide (a b : Value) : Outcome Value := do
  let x ← a.decimal?
  let y ← b.decimal?
  return .decimal (x / y)

def negate (a : Value) : Outcome Value :=
  match a.plainInteger?.bind Integer.negate? with
  | some n => .ok (.integer n)
  | none => do return .decimal (-(← a.decimal?))

def absolute (a : Value) : Outcome Value :=
  match a.plainInteger?.bind Integer.absolute? with
  | some n => .ok (.integer n)
  | none => do return .decimal (← a.decimal?).abs

def round (r : Decimal.Rounding) (a : Value) : Outcome Value :=
  match a.plainInteger? with
  | some n => .ok (.integer n)
  | none => do
    let x ← a.decimal?
    match Decimal.round? r x with
    | some n => return .integer n
    | none => return .decimal x

/-- Compares as decimals; numbers that have no order pass no test. -/
def compare (test : Ordering → Bool) (a b : Value) : Outcome Value := do
  let x ← a.decimal?
  let y ← b.decimal?
  return .boolean ((Decimal.order? x y).any test)

def roll (count sides : Value) : Outcome Value := do
  let c ← count.integer?
  let s ← sides.integer?
  return .roll c s

def signed (a : Value) : Outcome Value := do
  let n ← a.integer?
  return .text (if 0 ≤ n then "+" ++ Integer.text n else Integer.text n)

def ordinalSuffix (n : Nat) : String :=
  if 11 ≤ n % 100 ∧ n % 100 ≤ 13 then "th"
  else match n % 10 with
    | 1 => "st"
    | 2 => "nd"
    | 3 => "rd"
    | _ => "th"

def ordinal (a : Value) : Outcome Value := do
  let n ← a.integer?
  return .text (Integer.text n ++ ordinalSuffix n.toInt.natAbs)

def clamp (value low high : Value) : Outcome Value := do
  let n ← value.decimal?
  let l ← low.decimal?
  if n < l then return low
  else
    let h ← high.decimal?
    return if h < n then high else value

/-- Keeps the better one of the best value so far and the next one; of equals, the earlier one. -/
def better (keep : Ordering) (best : Option (Value × Float)) (v : Value) :
    Outcome (Option (Value × Float)) :=
  if v.isNull then .ok best
  else do
    let x ← v.decimal?
    match best with
    | none => return some (v, x)
    | some (b, y) => return if Decimal.order? x y = some keep then some (v, x) else some (b, y)

/-- The least or the greatest value; nulls do not take part, and nothing gives null. -/
def extremum (keep : Ordering) (vs : List Value) : Outcome Value := do
  let best ← vs.foldlM (better keep) none
  return match best with
    | some (v, _) => v
    | none => .null

def extremumEach (keep : Ordering) (a : Value) : Outcome Value := do
  return .list (← a.items.mapM fun v => extremum keep (Value.flatten [v]))

/-- Adds the next value to a total; a null counts as zero, except beside another null. -/
def addNext (strict : Bool) (total v : Value) : Outcome Value :=
  match total.isNull, v.isNull with
  | true, true => .ok .null
  | true, false => lenient strict (add (.integer 0) v)
  | false, true => lenient strict (add total (.integer 0))
  | false, false => lenient strict (add total v)

/-- Nothing to add gives zero; a single value is left as it is. -/
def sum (strict : Bool) : List Value → Outcome Value
  | [] => .ok (.integer 0)
  | v :: vs => vs.foldlM (addNext strict) v

def binary (strict : Bool) : BinaryOperator → Value → Value → Outcome Value
  | .list, a, b => .ok (.list (a.items ++ b.items))
  | .power, a, b => lenient strict (power a b)
  | .multiply, a, b => lenient strict (multiply a b)
  | .divide, a, b => lenient strict (divide a b)
  | .add, a, b => lenient strict (add a b)
  | .subtract, a, b => lenient strict (subtract a b)
  | .dice, a, b => roll a b
  | .below, a, b => compare Ordering.isLT a b
  | .atMost, a, b => compare Ordering.isLE a b
  | .above, a, b => compare Ordering.isGT a b
  | .atLeast, a, b => compare Ordering.isGE a b
  | .equal, a, b => .ok (.boolean (a.equals b))
  | .different, a, b => .ok (.boolean (!a.equals b))
  | .both, a, b => .ok (.boolean (a.truth && b.truth))
  | .either, a, b => .ok (.boolean (a.truth || b.truth))

def unary (strict : Bool) : UnaryOperator → Value → Outcome Value
  | .negate, a => lenient strict (negate a)
  | .not, a => .ok (.boolean (!a.truth))

def function1 : UnaryFunction → Value → Outcome Value
  | .abs, a => absolute a
  | .floor, a => round .down a
  | .ceil, a => round .up a
  | .signed, a => signed a
  | .ordinal, a => ordinal a
  | .minEach, a => extremumEach .lt a
  | .maxEach, a => extremumEach .gt a

def function3 : TernaryFunction → Value → Value → Value → Outcome Value
  | .clamp, value, low, high => clamp value low high
  | .choose, condition, yes, no => .ok (if condition.truth then yes else no)

def functionN (strict : Bool) : VariadicFunction → List Value → Outcome Value
  | .min, vs => extremum .lt (Value.flatten vs)
  | .max, vs => extremum .gt (Value.flatten vs)
  | .sum, vs => sum strict (Value.flatten vs)
  | .any, vs => .ok (.boolean ((Value.flatten vs).any Value.truth))
  | .all, vs => .ok (.boolean ((Value.flatten vs).all Value.truth))
  | .concat, vs => .ok (.list (Value.flatten vs))

/-- The words of the language as computations with values. -/
def arithmetic (strict : Bool) : Interpretation Value where
  binary := binary strict
  unary := unary strict
  function1 := function1
  function3 := function3
  functionN := functionN strict
  boolean := .boolean
  null := .null

end FormulaEngine.Formula
