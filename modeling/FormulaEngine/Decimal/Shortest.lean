import FormulaEngine.Decimal.Exact
import FormulaEngine.Text.Affix

/-!
# The fewest digits that read back

The reals that round to a float form an interval around it. The digits written are those of the
coarsest decimal grid with a point in that interval; of two such points the nearer one is taken.
-/
namespace FormulaEngine.Decimal

structure Digits where
  digits : Nat
  power : Int
  deriving DecidableEq, Repr

/-- The ends of the interval of reals that round to a number, in quarters of its last place. -/
structure Interval where
  lower : Nat
  upper : Nat
  exponent : Int
  closed : Bool
  deriving DecidableEq, Repr

/-- Below a power of two floats lie twice as dense. -/
def Exact.interval (x : Exact) : Interval where
  lower := 4 * x.mantissa - if x.mantissa = Nat.pow 2 52 ∧ -1074 < x.exponent then 1 else 2
  upper := 4 * x.mantissa + 2
  exponent := x.exponent - 2
  closed := x.mantissa % 2 == 0

/-- Both sides of the comparison of `a · 10^power` with `b · 2^exponent`, as whole numbers. -/
def sides (a : Nat) (power : Int) (b : Nat) (exponent : Int) : Nat × Nat :=
  (a * Nat.pow 10 power.toNat * Nat.pow 2 (-exponent).toNat,
    b * Nat.pow 2 exponent.toNat * Nat.pow 10 (-power).toNat)

def Interval.contains (i : Interval) (d : Digits) : Bool :=
  let (x, low) := sides d.digits d.power i.lower i.exponent
  let (y, high) := sides d.digits d.power i.upper i.exponent
  if i.closed then low ≤ x && y ≤ high else low < x && y < high

/-- The exponent `k` with `10^(k-1) ≤ x < 10^k`. -/
def Exact.magnitude (x : Exact) : Int :=
  (Nat.toDigits 10 (x.scaled * Nat.pow 10 350 / Nat.pow 2 x.shift)).length - 350

/-- The two neighbours on the grid of multiples of `10^power`, the nearer one first. -/
def Exact.neighbours (x : Exact) (power : Int) : List Digits :=
  let (unit, value) := sides 1 power x.mantissa x.exponent
  let low := value / unit
  let below := value % unit
  let down : Digits := ⟨low, power⟩
  let up : Digits := ⟨low + 1, power⟩
  if 2 * below < unit ∨ (2 * below = unit ∧ low % 2 = 0) then [down, up] else [up, down]

/-- Tries grids of `count`, `count + 1`, … digits, at most `more` of them. -/
def Exact.digitsFrom (x : Exact) (count : Nat) : (more : Nat) → Digits
  | 0 => ⟨x.mantissa, 0⟩
  | more + 1 =>
    match (x.neighbours (x.magnitude - count)).find? x.interval.contains with
    | some d => d
    | none => x.digitsFrom (count + 1) more

/-- Seventeen digits always suffice. -/
def Exact.shortest (x : Exact) : Digits := x.digitsFrom 1 17

structure Layout where
  /-- Numbers from `10^low` on and below `10^high` are written without an exponent. -/
  low : Int
  high : Int
  wholeSuffix : List Char
  exponentMark : Char
  exponentPlus : List Char
  deriving Repr

def Layout.place (l : Layout) (ds : List Char) (exponent : Int) : List Char :=
  if l.low ≤ exponent ∧ exponent < l.high then
    if exponent < 0 then
      '0' :: '.' :: List.replicate (-exponent - 1).toNat '0' ++ ds
    else
      let n := exponent.toNat + 1
      if ds.length ≤ n then ds ++ List.replicate (n - ds.length) '0' ++ l.wholeSuffix
      else ds.take n ++ '.' :: ds.drop n
  else
    let mantissa := match ds with
      | [] => []
      | [d] => [d]
      | d :: rest => d :: '.' :: rest
    let sign := if exponent < 0 then ['-'] else l.exponentPlus
    mantissa ++ l.exponentMark :: sign ++ Nat.toDigits 10 exponent.natAbs

def Layout.text (l : Layout) (x : Exact) : List Char :=
  let body :=
    if x.mantissa = 0 then '0' :: l.wholeSuffix
    else
      let d := x.shortest
      let ds := Nat.toDigits 10 d.digits
      l.place (Text.dropTrailing '0' ds) (ds.length - 1 + d.power)
  if x.negative then '-' :: body else body

end FormulaEngine.Decimal
