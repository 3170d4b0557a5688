import FormulaEngine.Grammar.Token

/-!
# Postfix order

Tokens in the order of reading become instructions in the order of running. Operators and
functions wait until their operands are complete; brackets keep apart those that wait inside from
those outside. Brackets that do not match are ignored.
-/
namespace FormulaEngine

variable {V : Type}

/-- What waits for its operands, and the brackets that are open. -/
inductive Pending (V : Type) where
  | operator (op : Operator V)
  | function (f : FunctionSymbol V)
  /-- The bracket that opens the arguments of a function, and how many have been begun. -/
  | call (f : FunctionSymbol V) (arguments : Nat)
  | group

/-- Instructions that are complete, and what is pending after them, the last one first. -/
abbrev Emission (V : Type) := List (Instruction V) × List (Pending V)

def completeBefore (op : Operator V) : List (Pending V) → Emission V
  | .operator top :: rest =>
    if op.yieldsTo top then
      let (code, rest) := completeBefore op rest
      (.operator top :: code, rest)
    else ([], .operator top :: rest)
  | pending => ([], pending)

/-- An operator before its operand has none on its left to yield. -/
def pendOperator (op : Operator V) (pending : List (Pending V)) : Emission V :=
  if op.isPrefix then ([], .operator op :: pending)
  else
    let (code, rest) := completeBefore op pending
    (code, .operator op :: rest)

def completeInside : List (Pending V) → Emission V
  | .operator op :: rest =>
    let (code, rest) := completeInside rest
    (.operator op :: code, rest)
  | .function f :: rest =>
    let (code, rest) := completeInside rest
    (.function f :: code, rest)
  | pending => ([], pending)

/-- Completes all that is pending; open brackets are dropped. -/
def completeAll : List (Pending V) → List (Instruction V)
  | [] => []
  | .operator op :: rest => .operator op :: completeAll rest
  | .function f :: rest => .function f :: completeAll rest
  | .call _ _ :: rest => completeAll rest
  | .group :: rest => completeAll rest

def insideCall : List (Pending V) → Bool
  | .call _ _ :: _ => true
  | .operator _ :: rest => insideCall rest
  | .function _ :: rest => insideCall rest
  | .group :: _ => false
  | [] => false

/-- Only a bracket directly after the name of a function opens its arguments. -/
def openBracket (previous : Option (Token V)) (pending : List (Pending V)) : Emission V :=
  match previous with
  | some (.function f) => ([], .call f 1 :: pending.tail)
  | _ => ([], .group :: pending)

/-- A call is completed after its arguments, and after their number if that is not fixed. -/
def closeBracket (previous : Option (Token V)) (pending : List (Pending V)) : Emission V :=
  let (code, rest) := completeInside pending
  match rest with
  | .call f arguments :: rest =>
    let count := match previous with
      | some .opening => 0
      | _ => arguments
    (code ++ (if f.operation.isVariadic then [.arity count] else []) ++ [.function f], rest)
  | .group :: rest => (code, rest)
  | rest => (code, rest)

/-- Between arguments a separator ends one; elsewhere it is an operator, if there is one for it. -/
def separate (listOperator : Option (Operator V)) (pending : List (Pending V)) : Emission V :=
  match insideCall pending, listOperator with
  | false, some op => pendOperator op pending
  | _, _ =>
    let (code, rest) := completeInside pending
    match rest with
    | .call f arguments :: rest => (code, .call f (arguments + 1) :: rest)
    | rest => (code, rest)

def emit (listOperator : Option (Operator V)) (previous : Option (Token V))
    (pending : List (Pending V)) : Token V → Emission V
  | .term v => ([.term v], pending)
  | .reference r => ([.reference r], pending)
  | .comment label => ([.comment label], pending)
  | .operator op => pendOperator op pending
  | .twoWay unary binary =>
    pendOperator (if Token.startsOperand previous then unary else binary) pending
  | .function f => ([], .function f :: pending)
  | .opening => openBracket previous pending
  | .closing => closeBracket previous pending
  | .separator => separate listOperator pending

/-- The instructions for the tokens after `previous`, with some of those before still pending. -/
def postfixFrom (listOperator : Option (Operator V)) (previous : Option (Token V))
    (pending : List (Pending V)) : List (Token V) → List (Instruction V)
  | [] => completeAll pending
  | token :: tokens =>
    let (code, pending) := emit listOperator previous pending token
    code ++ postfixFrom listOperator (some token) pending tokens

def toPostfix (listOperator : Option (Operator V)) (tokens : List (Token V)) :
    List (Instruction V) :=
  postfixFrom listOperator none [] tokens

end FormulaEngine
