import FormulaEngine.Decimal.Shortest
import FormulaEngine.Json.Number
import FormulaEngine.Value.Basic

/-!
# Values as JSON

A value is an object with the name of its kind as the only key; null and NaN are just the name.
What belongs to a wrapper or a roll is an object in turn, or an array of the same parts in order.
Values are read up to a fixed depth.
-/
namespace FormulaEngine

/-- Floats keep all their digits and a mark that they are no integers. -/
def jsonLayout : Decimal.Layout where
  low := -5
  high := 16
  wholeSuffix := ['.', '0']
  exponentMark := 'e'
  exponentPlus := ['+']

namespace JsonTree

def ofText (s : String) : JsonTree := .string (.ofChars s.toList)

def ofInteger (n : Int64) : JsonTree := .number (Integer.text n).toList

/-- What is no finite number becomes null. -/
def ofFloat (x : Float) : JsonTree :=
  match Decimal.kind x with
  | .finite e => .number (jsonLayout.text e)
  | _ => .null

def record (fields : List (String × JsonTree)) : JsonTree :=
  .object (fields.map fun f => (.ofChars f.1.toList, f.2))

def tagged (kind : String) (t : JsonTree) : JsonTree := record [(kind, t)]

def text? : JsonTree → Option String
  | .string units => units.toText?
  | _ => none

def boolean? : JsonTree → Option Bool
  | .boolean b => some b
  | _ => none

def number? : JsonTree → Option JsonNumber
  | .number literal => (JsonNumber.read? literal).map Prod.fst
  | _ => none

def integer? (t : JsonTree) : Option Int64 := t.number?.bind JsonNumber.integer?

def decimal? (t : JsonTree) : Option Float := t.number?.bind JsonNumber.decimal?

def isNull : JsonTree → Bool
  | .null => true
  | _ => false

def field? (fields : List (String × JsonTree)) (name : String) : Option JsonTree :=
  match fields.filter fun f => f.1 == name with
  | [(_, t)] => some t
  | _ => none

/-- The parts of an object, in the order of their names; an array holds them in that order. -/
def parts? (names : List String) : JsonTree → Option (List JsonTree)
  | .array items => if items.length = names.length then some items else none
  | .object fields => do
    let named ← fields.mapM fun f => f.1.toText?.map (·, f.2)
    names.mapM (field? named)
  | _ => none

end JsonTree

namespace Value

open JsonTree

def ofScalar : Scalar → JsonTree
  | .text s => tagged "Text" (ofText s)
  | .integer n => tagged "Integer" (ofInteger n)
  | .decimal x => tagged "Decimal" (ofFloat x)
  | .boolean b => tagged "Boolean" (.boolean b)
  | .null => ofText "None"
  | .nan => ofText "NaN"
  | .roll count sides =>
    tagged "Roll" (record [("count", ofInteger count), ("sides", ofInteger sides)])

mutual

def toJson : Value → JsonTree
  | .scalar s => ofScalar s
  | .list items => tagged "List" (.array (toJsonEach items))
  | .named subject label =>
    tagged "Named" (record [("value", subject.toJson), ("label", ofText label)])
  | .quoted subject opening closing =>
    tagged "Quoted"
      (record [("value", subject.toJson), ("prefix", ofText opening), ("suffix", ofText closing)])

def toJsonEach : List Value → List JsonTree
  | [] => []
  | v :: vs => v.toJson :: toJsonEach vs

end

def toJsonText (v : Value) : String := String.ofList v.toJson.write

def ofName? : String → Option Value
  | "None" => some .null
  | "NaN" => some .nan
  | _ => none

def scalarOfTagged? (kind : String) (t : JsonTree) : Option Value :=
  match kind with
  | "Text" => t.text?.map .text
  | "Integer" => t.integer?.map .integer
  | "Decimal" => t.decimal?.map .decimal
  | "Boolean" => t.boolean?.map .boolean
  | "None" => if t.isNull then some .null else none
  | "NaN" => if t.isNull then some .nan else none
  | _ => none

/-- The kinds made of parts, where `read?` reads the values among these. -/
def ofParts? (read? : JsonTree → Option Value) (kind : String) (t : JsonTree) : Option Value :=
  match kind, t with
  | "List", .array items => (items.mapM read?).map .list
  | "Named", t =>
    match t.parts? ["value", "label"] with
    | some [v, label] => do return .named (← read? v) (← label.text?)
    | _ => none
  | "Quoted", t =>
    match t.parts? ["value", "prefix", "suffix"] with
    | some [v, opening, closing] => do
      return .quoted (← read? v) (← opening.text?) (← closing.text?)
    | _ => none
  | "Roll", t =>
    match t.parts? ["count", "sides"] with
    | some [count, sides] => do return .roll (← count.integer?) (← sides.integer?)
    | _ => none
  | _, _ => none

/--
Reads a value that is nested less than `depth` brackets deep. The brackets of a kind and those of
its parts are counted apart.
-/
def ofJson? : (depth : Nat) → JsonTree → Option Value
  | _, .string units => units.toText?.bind ofName?
  | depth + 2, .object [(key, t)] =>
    match key.toText? with
    | none => none
    | some kind =>
      match scalarOfTagged? kind t with
      | some v => some v
      | none => if depth = 0 then none else ofParts? (ofJson? depth) kind t
  | _, _ => none

def greatestDepth : Nat := 128

def ofJsonText? (text : String) : Option Value :=
  (JsonTree.ofText? text.toList).bind (ofJson? greatestDepth)

end Value

end FormulaEngine
