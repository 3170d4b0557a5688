/-!
# The exact number behind a float

A finite float is `± mantissa · 2^exponent`. All texts and roundings are decided on these two
whole numbers, never by float arithmetic.
-/
namespace FormulaEngine.Decimal

structure Exact where
  negative : Bool
  mantissa : Nat
  exponent : Int
  deriving DecidableEq, Repr

inductive Kind where
  | nan
  | infinite (negative : Bool)
  | finite (x : Exact)
  deriving DecidableEq, Repr

def Kind.ofBits (bits : Nat) : Kind :=
  let negative := bits / Nat.pow 2 63 % 2 == 1
  let biased : Nat := bits / Nat.pow 2 52 % Nat.pow 2 11
  let fraction : Nat := bits % Nat.pow 2 52
  if biased = Nat.pow 2 11 - 1 then
    if fraction = 0 then .infinite negative else .nan
  else if biased = 0 then .finite ⟨negative, fraction, -1074⟩
  else .finite ⟨negative, Nat.pow 2 52 + fraction, (biased : Int) - 1075⟩

def kind (x : Float) : Kind := Kind.ofBits x.toBits.toNat

namespace Exact

/-- The magnitude times `2^(shift x)`, a whole number. -/
def scaled (x : Exact) : Nat := x.mantissa * Nat.pow 2 x.exponent.toNat

def shift (x : Exact) : Nat := (-x.exponent).toNat

def whole (x : Exact) : Nat := x.scaled / Nat.pow 2 x.shift

def fraction (x : Exact) : Nat := x.scaled % Nat.pow 2 x.shift

def signed (x : Exact) (n : Nat) : Int := if x.negative then -n else n

def truncate (x : Exact) : Int := x.signed x.whole

def floor (x : Exact) : Int :=
  if x.negative && x.fraction != 0 then x.truncate - 1 else x.truncate

def ceiling (x : Exact) : Int :=
  if !x.negative && x.fraction != 0 then x.truncate + 1 else x.truncate

/-- The fractional part is smaller than `2^(-52)`. -/
def isWhole (x : Exact) : Bool := x.fraction * Nat.pow 2 52 < Nat.pow 2 x.shift

end Exact

end FormulaEngine.Decimal
