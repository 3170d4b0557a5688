import FormulaEngine.Grammar.Postfix
import FormulaEngine.Text.Affix
import FormulaEngine.Token.Lexicon

/-!
# Grammars

A grammar is built from rules, each of which says how one kind of token is written and what it
means. All grammars have numbers, brackets and the separator in common. Of two rules that match at
the same place the earlier one is followed.
-/
namespace FormulaEngine

structure Grammar (V : Type) where
  lexicon : Lexicon (Token V)
  /-- What a separator means outside of calls. -/
  listOperator : Option (Operator V)

inductive Rule (V : Type) where
  | ignoreBlanks
  | token (f : Fragment) (reading : Reading (Token V))
  | operator (op : Operator V)
  /-- One symbol, that of `binary`, for an operator before and one between operands. -/
  | twoWay (unary binary : Operator V)
  | listOperator (op : Operator V)
  | function (f : FunctionSymbol V)
  | constant (word : String) (v : V)
  /-- A key of a letter and key characters. -/
  | reference (opening : String)
  /-- A key between delimiters, which may also hold blanks and dashes. -/
  | bracedReference (opening closing : String)
  | comment (opening closing : String)
  /-- A quoted text; what is escaped in it stays so. -/
  | literal (opening closing : String) (escape : Option String)

namespace Rule

variable {V : Type} [Operand V]

def body (opening closing : String) (cs : List Char) : String :=
  String.ofList (Text.between opening.toList closing.toList cs)

def referenceFragment (opening : String) : Fragment :=
  .sequence [.term opening.toList, .alpha, .optional .key]

def bracedFragment (opening closing : String) : Fragment :=
  .sequence [.term opening.toList, .bracedKey, .term closing.toList]

/-- How the rule is written and what its tokens are read as. -/
def entry? : Rule V → Option (Fragment × Reading (Token V))
  | .ignoreBlanks => some (.blanks, fun _ => none)
  | .token f reading => some (f, reading)
  | .operator op => some (.term op.symbol.toList, fun _ => some (.operator op))
  | .twoWay unary binary => some (.term binary.symbol.toList, fun _ => some (.twoWay unary binary))
  | .listOperator _ => none
  | .function f => some (.term f.name.toList, fun _ => some (.function f))
  | .constant word v => some (.term word.toList, fun _ => some (.term v))
  | .reference opening => some (referenceFragment opening, fun cs =>
      some (.reference ⟨opening, body opening "" cs, ""⟩))
  | .bracedReference opening closing => some (bracedFragment opening closing, fun cs =>
      some (.reference ⟨opening, body opening closing cs, closing⟩))
  | .comment opening closing => some (.literal opening.toList closing.toList none, fun cs =>
      some (.comment (body opening closing cs)))
  | .literal opening closing escape =>
    some (.literal opening.toList closing.toList (escape.map String.toList), fun cs =>
      some (.term (Operand.quoted (Operand.ofText (body opening closing cs)) opening closing)))

def basics : List (Rule V) :=
  [ .token .decimal fun cs => some (.term (Operand.ofDecimal (String.ofList cs))),
    .token .integer fun cs => some (.term (Operand.ofInteger (String.ofList cs))),
    .token (.just '(') fun _ => some .opening,
    .token (.just ')') fun _ => some .closing,
    .token (.just ',') fun _ => some .separator ]

end Rule

namespace Grammar

variable {V : Type} [Operand V]

def empty : Grammar V := ⟨.empty, none⟩

/-- Of several list operators the last one counts. -/
def add (g : Grammar V) (r : Rule V) : Except Conflict (Grammar V) :=
  match r with
  | .listOperator op => .ok { g with listOperator := some op }
  | _ =>
    match r.entry? with
    | none => .ok g
    | some (f, reading) =>
      match g.lexicon.add f reading with
      | (_, some conflict) => .error conflict
      | (lexicon, none) => .ok { g with lexicon }

def extend (g : Grammar V) : List (Rule V) → Except Conflict (Grammar V)
  | [] => .ok g
  | r :: rules =>
    match g.add r with
    | .error conflict => .error conflict
    | .ok g => g.extend rules

def build (rules : List (Rule V)) : Except Conflict (Grammar V) :=
  empty.extend (Rule.basics ++ rules)

def tokenize (g : Grammar V) (text : String) : Except ParseError (List (Token V)) :=
  g.lexicon.scan text

def compile (g : Grammar V) (text : String) : Except ParseError (Program V) :=
  match g.tokenize text with
  | .error e => .error e
  | .ok tokens => .ok ⟨toPostfix g.listOperator tokens, text⟩

end Grammar

end FormulaEngine
