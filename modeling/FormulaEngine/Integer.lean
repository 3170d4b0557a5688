/-!
# Integers of 64 bits

Arithmetic that answers only when the exact result fits, and the reading of integers from text.
-/
namespace FormulaEngine.Integer

def least : Int := -0x8000000000000000

def greatest : Int := 0x7FFFFFFFFFFFFFFF

/-- The integer of 64 bits equal to `n`, if there is one. -/
def ofInt? (n : Int) : Option Int64 :=
  if least ≤ n ∧ n ≤ greatest then some (Int64.ofInt n) else none

def clamp (n : Int) : Int64 :=
  if n < least then Int64.ofInt least
  else if greatest < n then Int64.ofInt greatest
  else Int64.ofInt n

def add? (a b : Int64) : Option Int64 := ofInt? (a.toInt + b.toInt)

def subtract? (a b : Int64) : Option Int64 := ofInt? (a.toInt - b.toInt)

def multiply? (a b : Int64) : Option Int64 := ofInt? (a.toInt * b.toInt)

def negate? (a : Int64) : Option Int64 := ofInt? (-a.toInt)

def absolute? (a : Int64) : Option Int64 := ofInt? a.toInt.natAbs

/-- Exponents above this are refused whatever the base is. -/
def greatestExponent : Int := 0xFFFFFFFF

/-- `total` times a power of `base`. The base is squared from one binary digit of the exponent to the
next, and every product on the way has to fit. -/
def powerFrom? (total base : Int64) (exponent : Nat) : Option Int64 :=
  if exponent = 0 then some total
  else
    (if exponent % 2 = 1 then multiply? total base else some total).bind fun total =>
      if exponent = 1 then some total
      else (multiply? base base).bind fun square => powerFrom? total square (exponent / 2)
termination_by exponent
decreasing_by omega

def power? (a b : Int64) : Option Int64 :=
  let y := b.toInt
  if y < 0 ∨ greatestExponent < y then none else powerFrom? 1 a y.toNat

theorem ofInt?_eq_some {n : Int} {m : Int64} :
    ofInt? n = some m ↔ least ≤ n ∧ n ≤ greatest ∧ m = Int64.ofInt n := by
  unfold ofInt?
  split
  · rename_i h
    rw [Option.some.injEq]
    exact ⟨fun e => ⟨h.1, h.2, e.symm⟩, fun e => e.2.2.symm⟩
  · rename_i h
    exact ⟨nofun, fun e => absurd ⟨e.1, e.2.1⟩ h⟩

theorem toInt_of_ofInt? {n : Int} {m : Int64} (h : ofInt? n = some m) : m.toInt = n := by
  obtain ⟨hl, hg, rfl⟩ := ofInt?_eq_some.1 h
  simp only [least, greatest] at hl hg
  exact Int64.toInt_ofInt_of_le (by omega) (by omega)

def ofDigits (cs : List Char) : Nat := cs.foldl (fun n c => 10 * n + (c.toNat - '0'.toNat)) 0

/-- Splits a leading sign off; the flag tells a minus. -/
def splitSign : List Char → Bool × List Char
  | '-' :: cs => (true, cs)
  | '+' :: cs => (false, cs)
  | cs => (false, cs)

def read? (cs : List Char) : Option Int64 :=
  let (negative, digits) := splitSign cs
  if digits.isEmpty || !digits.all Char.isDigit then none
  else
    let n : Int := ofDigits digits
    ofInt? (if negative then -n else n)

def text (n : Int64) : String := toString n.toInt

end FormulaEngine.Integer
