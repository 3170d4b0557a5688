import FormulaEngine.Formula.Vocabulary

/-!
# Symbols

What a formula looks like, without its value: a tree that is simplified while it is built and
written as a formula again, with no brackets but those that are needed.
-/
namespace FormulaEngine

inductive MathOperator where
  | add
  | subtract
  | multiply
  | divide
  deriving DecidableEq, Repr

namespace MathOperator

def symbol : MathOperator → String
  | add => "+"
  | subtract => "-"
  | multiply => "*"
  | divide => "/"

def precedence : MathOperator → Nat
  | add => 2
  | subtract => 2
  | multiply => 3
  | divide => 3

def sameClass (a b : MathOperator) : Bool := a.precedence == b.precedence

/-- A right operand of the same class can be regrouped. -/
def isAssociative : MathOperator → Bool
  | add => true
  | subtract => false
  | multiply => true
  | divide => false

end MathOperator

inductive Symbol where
  | atom (text : String)
  | boolean (b : Bool)
  /-- The text of an operator that is not simplified. -/
  | infixed (text : String) (precedence : Nat)
  | math (op : MathOperator) (left right : Symbol)
  | any (items : List Symbol)
  | all (items : List Symbol)
  | named (subject : Symbol) (label : String)

namespace Symbol

instance : Inhabited Symbol := ⟨atom ""⟩

/--
The elements that stay in a disjunction (`absorbing` is true) or a conjunction (it is false): one
level of nesting is merged and the neutral constant is dropped. The absorbing constant decides the
whole, so that nothing stays.
-/
def keep (absorbing : Bool) : List Symbol → Option (List Symbol)
  | [] => some []
  | s :: rest =>
    match s, absorbing with
    | .any nested, true => (keep absorbing rest).map (nested ++ ·)
    | .all nested, false => (keep absorbing rest).map (nested ++ ·)
    | .boolean b, _ => if b = absorbing then none else keep absorbing rest
    | other, _ => (keep absorbing rest).map (other :: ·)

/-- Where nothing is left the neutral constant stands, and a single element stands for itself. -/
def fold (absorbing : Bool) (items : List Symbol) : Symbol :=
  match keep absorbing items with
  | none => .boolean absorbing
  | some [] => .boolean !absorbing
  | some [s] => s
  | some kept => if absorbing then .any kept else .all kept

def disjunction (items : List Symbol) : Symbol := fold true items

def conjunction (items : List Symbol) : Symbol := fold false items

/-- Lists are bracketed among arguments. -/
def listPrecedence : Nat := 1

inductive Place where
  | formula
  | argument
  /-- Where anything that an operator makes needs brackets. -/
  | tight
  /-- As an operand; a `loose` one is on the side its operator associates to. -/
  | operand (precedence : Nat) (loose : Bool)
  | mathOperand (parent : MathOperator) (right : Bool)
  deriving DecidableEq, Repr

namespace Place

/-- An operator that binds tighter needs no brackets, nor does an equal one where it is loose. -/
def admits (precedence : Nat) (loose : Bool) (own : Nat) : Bool :=
  precedence < own || (loose && own == precedence)

def admitsInfix (own : Nat) : Place → Bool
  | formula => true
  | argument => listPrecedence < own
  | tight => false
  | operand precedence loose => admits precedence loose own
  | mathOperand parent right => admits parent.precedence (!right) own

/-- A simplified operator needs no brackets here; on the right only if it can be regrouped. -/
def admitsMath (op : MathOperator) : Place → Bool
  | formula => true
  | argument => true
  | tight => false
  | operand _ _ => false
  | mathOperand parent right => op.sameClass parent && (!right || parent.isAssociative)

end Place

def bracketUnless (bare : Bool) (text : String) : String :=
  if bare then text else "(" ++ text ++ ")"

mutual

def write (place : Place) : Symbol → String
  | .atom text => text
  | .boolean b => if b then "true" else "false"
  | .infixed text own => bracketUnless (place.admitsInfix own) text
  | .math op left right =>
    bracketUnless (place.admitsMath op)
      (left.write (.mathOperand op false) ++ op.symbol ++ right.write (.mathOperand op true))
  | .any items => "any(" ++ ",".intercalate (writeArguments items) ++ ")"
  | .all items => "all(" ++ ",".intercalate (writeArguments items) ++ ")"
  | .named subject label => subject.write .tight ++ "[" ++ label ++ "]"

def writeArguments : List Symbol → List String
  | [] => []
  | s :: rest => s.write .argument :: writeArguments rest

end

def formulaText (s : Symbol) : String := s.write .formula

def call (name : String) (arguments : List Symbol) : String :=
  name ++ "(" ++ ",".intercalate (writeArguments arguments) ++ ")"

end Symbol

end FormulaEngine
