import FormulaEngine.Error
import FormulaEngine.Decimal.Reading
import FormulaEngine.Decimal.Text
import FormulaEngine.Text.Blank

/-!
# Values

A formula evaluates to a scalar or a list of values. Labels and quotation marks may be wrapped
around either. Every value can be read as text, as a number, as a truth value and as a list: such a
view looks through the wrappers, and a view as a scalar takes a list for its last element.
-/
namespace FormulaEngine

inductive Scalar where
  | text (s : String)
  | integer (n : Int64)
  | decimal (x : Float)
  | boolean (b : Bool)
  | null
  | nan
  /-- So many dice with so many sides; as a number, the total to be expected. -/
  | roll (count sides : Int64)
  deriving DecidableEq

inductive Value where
  | scalar (s : Scalar)
  | list (items : List Value)
  | named (subject : Value) (label : String)
  /-- A value that keeps the marks it was written between. -/
  | quoted (subject : Value) (opening closing : String)

namespace Scalar

def readText? (s : String) : Option Float :=
  (Decimal.read? (Text.trim s.toList)).filter Float.isFinite

/-- The view as a number; text must spell a finite one. -/
def decimal? : Scalar → Except ResolveError Float
  | text s => (readText? s).elim (.error (.notANumber s)) .ok
  | integer n => .ok (Decimal.ofInteger n)
  | decimal x => .ok x
  | boolean b => .ok (if b then 1.0 else 0.0)
  | null => .ok 0.0
  | nan => .ok (0.0 / 0.0)
  | roll count sides =>
    .ok (Decimal.ofInteger count * (Decimal.ofInteger sides + 1.0) / 2.0)

def isNaN : Scalar → Bool
  | nan => true
  | decimal x => x.isNaN
  | _ => false

/-- The view as an integer drops the fractional part. -/
def integer? (s : Scalar) : Except ResolveError Int64 :=
  match s with
  | integer n => .ok n
  | text t =>
    match Integer.read? (Text.trim t.toList) with
    | some n => .ok n
    | none => s.decimal?.map Decimal.toInteger
  | _ => if s.isNaN then .error (.notANumber "NaN") else s.decimal?.map Decimal.toInteger

def falseTexts : List String := ["false", "no", "0", ""]

def truth : Scalar → Bool
  | text s => !falseTexts.contains s.toLower
  | integer n => n != 0
  | decimal x => !Decimal.isZero x && !x.isNaN
  | boolean b => b
  | null => false
  | nan => false
  | roll count sides => 0 < count && 0 < sides

def display : Scalar → String
  | text s => s
  | integer n => Integer.text n
  | decimal x => Decimal.text x
  | boolean b => if b then "true" else "false"
  | null => ""
  | nan => "NaN"
  | roll count sides => Integer.text count ++ "d" ++ Integer.text sides

end Scalar

namespace Value

abbrev text (s : String) : Value := .scalar (.text s)
abbrev integer (n : Int64) : Value := .scalar (.integer n)
abbrev decimal (x : Float) : Value := .scalar (.decimal x)
abbrev boolean (b : Bool) : Value := .scalar (.boolean b)
abbrev null : Value := .scalar .null
abbrev nan : Value := .scalar .nan
abbrev roll (count sides : Int64) : Value := .scalar (.roll count sides)

instance : Inhabited Value := ⟨null⟩

inductive Content where
  | scalar (s : Scalar)
  | list (items : List Value)

def content : Value → Content
  | scalar s => .scalar s
  | list items => .list items
  | named subject _ => subject.content
  | quoted subject _ _ => subject.content

def Content.value : Content → Value
  | .scalar s => .scalar s
  | .list items => .list items

/-- The value without its wrappers; the elements of a list keep theirs. -/
def inner (v : Value) : Value := v.content.value

mutual

/-- The scalar a value stands for: of a list the one its last element stands for, if it has one. -/
def latest : Value → Scalar
  | scalar s => s
  | list items => latestOf items
  | named subject _ => subject.latest
  | quoted subject _ _ => subject.latest

def latestOf : List Value → Scalar
  | [] => .null
  | [v] => v.latest
  | _ :: v :: vs => latestOf (v :: vs)

end

/-- The integer a value stands for, without converting anything else. -/
def plainInteger? (v : Value) : Option Int64 :=
  match v.latest with
  | .integer n => some n
  | _ => none

def decimal? (v : Value) : Except ResolveError Float := v.latest.decimal?

def integer? (v : Value) : Except ResolveError Int64 := v.latest.integer?

def truth (v : Value) : Bool := v.latest.truth

def display (v : Value) : String := v.latest.display

def isNull (v : Value) : Bool :=
  match v.content with
  | .scalar .null => true
  | _ => false

def isNaN (v : Value) : Bool :=
  match v.content with
  | .scalar s => s.isNaN
  | .list _ => false

def isList (v : Value) : Bool :=
  match v.content with
  | .list _ => true
  | .scalar _ => false

/-- Only null and empty lists have no value. -/
def hasValue (v : Value) : Bool :=
  match v.content with
  | .scalar .null => false
  | .scalar _ => true
  | .list items => !items.isEmpty

/-- The elements of a list; any other value is the only element, wrappers included. -/
def items (v : Value) : List Value :=
  match v.content with
  | .list items => items
  | .scalar _ => [v]

end Value

end FormulaEngine
