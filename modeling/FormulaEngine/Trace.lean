import FormulaEngine.Program.Machine

/-!
# Traces

Operands that record how they were computed: a trace is the text of the computation. Grammars of
one's own can be tried out with them.
-/
namespace FormulaEngine

structure Trace where
  text : String
  deriving DecidableEq, Repr

namespace Trace

instance : Operand Trace where
  ofInteger s := ⟨"i" ++ s⟩
  ofDecimal s := ⟨"d" ++ s⟩
  ofText s := ⟨"t" ++ s⟩
  quoted v opening closing := ⟨"q" ++ opening ++ v.text ++ closing⟩
  annotate v label := ⟨v.text ++ "[" ++ label ++ "]"⟩

def ofWord (word : String) : Trace := ⟨"x" ++ word⟩

/-- Operations whose name starts with this word fail. -/
def failing : String := "fail"

def apply (name : String) (operands : List Trace) : Outcome Trace :=
  if failing.toList.isPrefixOf name.toList then .error (.notANumber name)
  else .ok ⟨"(" ++ " ".intercalate (name :: operands.map Trace.text) ++ ")"⟩

def operation? (name : String) : (arity : Option Nat) → Option (Operation Trace)
  | some 0 => some (.nullary (apply name []))
  | some 1 => some (.unary fun a => apply name [a])
  | some 2 => some (.binary fun a b => apply name [a, b])
  | some 3 => some (.ternary fun a b c => apply name [a, b, c])
  | some _ => none
  | none => some (.variadic (apply name))

inductive Entry where
  | value (v : Trace)
  | splice (p : Program Trace)
  | failure (text : String)

/-- The entry of a key; of several the last one counts. -/
def find? (key : String) : List (String × Entry) → Option Entry
  | [] => none
  | (k, e) :: entries =>
    match find? key entries with
    | some found => some found
    | none => if key = k then some e else none

/-- A key without an entry leaves its name in the trace. -/
def resolver (entries : List (String × Entry)) : Resolver Trace := fun r =>
  match find? r.key entries with
  | some (.value v) => .ok (.value v)
  | some (.splice p) => .ok (.splice p)
  | some (.failure text) => .error (.notANumber text)
  | none => .ok (.value ⟨"?" ++ r.key⟩)

def scopes (entries : List (String × Entry)) : List (Resolver Trace) :=
  List.replicate (entries.length + 1) (resolver entries)

end Trace

end FormulaEngine
