import FormulaEngine.Grammar.Basic
import FormulaEngine.Text.Escape

/-!
# Descriptions for inspection

The nodes of a trie, lexicons and the rules of a grammar in one line each.
-/
namespace FormulaEngine

def describeRecord (name : String) (fields : List (String × String)) : String :=
  name ++ " \x7b " ++ ", ".intercalate (fields.map fun f => f.1 ++ ": " ++ f.2) ++ " \x7d"

def describeOption {α : Type} (describe : α → String) : Option α → String
  | none => "None"
  | some x => "Some(" ++ describe x ++ ")"

def Arena.describeId (i : Nat) : String := s!"ArenaId({i})"

def Matcher.describe : Matcher → String
  | .char c => "Char(" ++ Text.quotedChar c ++ ")"
  | .anyOf allowed => "AnyOf(" ++ Text.quotedText allowed ++ ")"

def Step.describe : Step → String
  | .root => "Root"
  | .one m => "Match(" ++ m.describe ++ ")"
  | .run m min max =>
    describeRecord "Repeat" [("matcher", m.describe), ("min", toString min), ("max", toString max)]
  | .stopAt close escape =>
    describeRecord "AnyUntil"
      [("close", Text.quotedText close), ("escape", describeOption Text.quotedText escape)]

def TrieNode.describe {α : Type} (node : TrieNode α) : String :=
  describeRecord "MatcherNode"
    [ ("kind", node.step.describe), ("children", toString node.children.length),
      ("mapped", toString node.mark.isSome) ]

def Lexicon.describe {τ : Type} (l : Lexicon τ) : String :=
  describeRecord "TokenTree" [("nodes", toString l.size)]

def Associativity.describe : Associativity → String
  | .left => "Left"
  | .right => "Right"

def Operator.describe {V : Type} (op : Operator V) : String :=
  describeRecord "Operator"
    [ ("symbol", Text.quotedText op.symbol.toList), ("precedence", toString op.precedence),
      ("associativity", op.associativity.describe),
      ("arity", describeOption toString op.operation.arity?) ] ++
  " prefix=" ++ toString op.isPrefix

def FunctionSymbol.describe {V : Type} (f : FunctionSymbol V) : String :=
  describeRecord "Function"
    [ ("name", Text.quotedText f.name.toList),
      ("arity", describeOption toString f.operation.arity?) ] ++
  " variadic=" ++ toString f.operation.isVariadic

/-- Rules for operators and functions have a description. -/
def Rule.describe? {V : Type} : Rule V → Option String
  | .operator op => some op.describe
  | .twoWay unary binary => some (unary.describe ++ " / " ++ binary.describe)
  | .function f => some f.describe
  | _ => none

end FormulaEngine
