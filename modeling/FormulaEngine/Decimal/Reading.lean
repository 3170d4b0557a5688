import FormulaEngine.Decimal.Basic

/-!
# Reading decimals

An optional sign, then `inf`, `infinity` or `nan` in any case, or digits with at most one point and
an optional exponent. At least one digit must stand beside the point.
-/
namespace FormulaEngine.Decimal

/-- A number as it is written: `digits · 10^exponent`. -/
structure Written where
  digits : Nat
  exponent : Int
  deriving DecidableEq, Repr

/--
The nearest float. Numbers far out of the range of floats are settled by their magnitude alone, so
that no huge power of ten is computed.
-/
def Written.toFloat (w : Written) : Float :=
  let magnitude : Int := (Nat.toDigits 10 w.digits).length + w.exponent
  if w.digits = 0 ∨ magnitude < -400 then 0.0
  else if 400 < magnitude then 1.0 / 0.0
  else Float.ofScientific w.digits (w.exponent < 0) w.exponent.natAbs

def spanDigits (cs : List Char) : List Char × List Char :=
  (cs.takeWhile Char.isDigit, cs.dropWhile Char.isDigit)

/-- Nothing at all, or `e` or `E`, an optional sign and digits to the end. -/
def readExponent? : List Char → Option Int
  | [] => some 0
  | c :: cs =>
    if c = 'e' ∨ c = 'E' then
      let (negative, digits) := Integer.splitSign cs
      if digits.isEmpty || !digits.all Char.isDigit then none
      else
        let n : Int := Integer.ofDigits digits
        some (if negative then -n else n)
    else none

def Written.read? (cs : List Char) : Option Written :=
  let (whole, rest) := spanDigits cs
  let (places, rest) := match rest with
    | '.' :: rest => spanDigits rest
    | _ => ([], rest)
  if whole.isEmpty && places.isEmpty then none
  else (readExponent? rest).map fun e => ⟨Integer.ofDigits (whole ++ places), e - places.length⟩

def readMagnitude? (cs : List Char) : Option Float :=
  let word := String.ofList (cs.map Char.toLower)
  if word = "inf" ∨ word = "infinity" then some (1.0 / 0.0)
  else if word = "nan" then some (0.0 / 0.0)
  else (Written.read? cs).map Written.toFloat

def read? (cs : List Char) : Option Float :=
  let (negative, rest) := Integer.splitSign cs
  (readMagnitude? rest).map fun x => if negative then -x else x

end FormulaEngine.Decimal
