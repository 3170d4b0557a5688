import FormulaEngine.Decimal.Basic
import FormulaEngine.Text.Affix

/-!
# The text of a decimal

Whole numbers are written as integers, all others with at most six places. The digits come from
the exact number: the nearest multiple of a millionth, and of two equally near ones the even one.
-/
namespace FormulaEngine.Decimal

/-- The whole number nearest to `num / den`; a tie goes to the even neighbour. -/
def roundDiv (num den : Nat) : Nat :=
  let q := num / den
  let r := num % den
  if 2 * r < den then q else if den < 2 * r then q + 1 else q + q % 2

def places : Nat := 6

def Exact.fixed (x : Exact) : List Char :=
  let unit := Nat.pow 10 places
  let n := roundDiv (x.scaled * unit) (Nat.pow 2 x.shift)
  Nat.toDigits 10 (n / unit) ++ '.' :: (Nat.toDigits 10 (n % unit)).leftpad places '0'

/-- The sign and the places without the zeros that end them; the sign stays on a zero. -/
def Exact.text (x : Exact) : List Char :=
  let digits := Text.dropTrailing '.' (Text.dropTrailing '0' x.fixed)
  if x.negative then '-' :: digits else digits

/-- Whole numbers out of the range of integers are written as the last integer of that side. -/
def text (x : Float) : String :=
  match kind x with
  | .nan => "NaN"
  | .infinite negative => if negative then "-Infinity" else "Infinity"
  | .finite e => if e.isWhole then Integer.text (Integer.clamp e.truncate) else String.ofList e.text

end FormulaEngine.Decimal
