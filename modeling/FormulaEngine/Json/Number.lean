import FormulaEngine.Decimal.Basic
import FormulaEngine.Json.Read

/-!
# Numbers in JSON

A number as an integer, and as a decimal. A decimal is computed from the digits that fit into 64
bits and one multiplication or division by a power of ten, so that its last place may be off.
-/
namespace FormulaEngine.JsonNumber

/-- Numbers with a point or an exponent, and minus zero, are no integers. -/
def integer? (n : JsonNumber) : Option Int64 :=
  if n.places.isSome || n.exponent.isSome then none
  else
    let k : Int := Integer.ofDigits n.whole
    if n.negative then (if k = 0 then none else Integer.ofInt? (-k)) else Integer.ofInt? k

def greatestSignificand : Nat := 0xFFFFFFFFFFFFFFFF

def greatestExponent : Nat := 0x7FFFFFFF

/-- Appends digits as long as the number fits; answers the digits that are left. -/
def accumulate (significand : Nat) : List Char → Nat × List Char
  | [] => (significand, [])
  | d :: ds =>
    let next := 10 * significand + (d.toNat - '0'.toNat)
    if greatestSignificand < next then (significand, d :: ds) else accumulate next ds

def powerOfTen (n : Nat) : Float := Float.ofScientific 1 false n

/-- The number times a power of ten, unless it is too great. -/
def scale (x : Float) (exponent : Int) : Option Float :=
  if exponent.natAbs ≤ 308 then
    if exponent < 0 then some (x / powerOfTen exponent.natAbs)
    else
      let y := x * powerOfTen exponent.natAbs
      if y.isFinite then some y else none
  else if x == 0.0 then some x
  else if 0 ≤ exponent then none
  else scale (x / powerOfTen 308) (exponent + 308)
termination_by exponent.natAbs

/-- The nearest decimal or one close to it; nothing if it is out of range. -/
def decimal? (n : JsonNumber) : Option Float :=
  let (significand, dropped) := accumulate 0 n.whole
  let places := n.places.getD []
  let (significand, ignored) := accumulate significand places
  let start : Int := dropped.length - (places.length - ignored.length : Nat)
  let sign (x : Float) : Float := if n.negative then -x else x
  match n.exponent with
  | none => (scale (Float.ofNat significand) start).map sign
  | some (negative, digits) =>
    let e := Integer.ofDigits digits
    if greatestExponent < e then
      if significand ≠ 0 ∧ ¬negative then none else some (sign 0.0)
    else (scale (Float.ofNat significand) (if negative then start - e else start + e)).map sign

end FormulaEngine.JsonNumber
