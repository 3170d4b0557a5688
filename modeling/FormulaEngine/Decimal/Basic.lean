import FormulaEngine.Decimal.Exact
import FormulaEngine.Integer

/-!
# Decimal numbers

The comparisons, conversions and roundings of the formula language. Numbers nearer to each other
than `tolerance` count as equal.
-/
namespace FormulaEngine.Decimal

/-- The gap between 1 and the next float. -/
def epsilon : Float := 1.0 / 4503599627370496.0

def tolerance : Float := 0.01

def isZero (x : Float) : Bool := x.abs < epsilon

/-- Nothing is close to a number that is not one. -/
def isClose (x y : Float) : Bool := (x - y).abs < tolerance

def isWhole (x : Float) : Bool :=
  match kind x with
  | .finite e => e.isWhole
  | _ => false

def order? (x y : Float) : Option Ordering :=
  if x < y then some .lt else if x == y then some .eq else if y < x then some .gt else none

def ofInteger (n : Int64) : Float := Float.ofInt n.toInt

/-- Drops the fractional part and keeps to the range; what is no number becomes zero. -/
def toInteger (x : Float) : Int64 :=
  match kind x with
  | .nan => 0
  | .infinite negative => Integer.clamp (if negative then Integer.least else Integer.greatest)
  | .finite e => Integer.clamp e.truncate

inductive Rounding where
  | down
  | up
  deriving DecidableEq, Repr

def Rounding.apply : Rounding → Exact → Int
  | .down, e => e.floor
  | .up, e => e.ceiling

/-- The rounded number, where it is an integer strictly between `-2^63` and `2^63`. -/
def round? (r : Rounding) (x : Float) : Option Int64 :=
  match kind x with
  | .finite e =>
    let n := r.apply e
    if n.natAbs < Nat.pow 2 63 then some (Int64.ofInt n) else none
  | _ => none

end FormulaEngine.Decimal
