import FormulaEngine.Formula.Basic
import FormulaEngine.Symbol.Basic

/-!
# Simplifying formulas

The words of the formula language as operations on symbols. A formula is simplified by evaluating
it to a symbol and writing that symbol as a formula.
-/
namespace FormulaEngine

namespace Symbol

instance : Operand Symbol where
  ofInteger := .atom
  ofDecimal := .atom
  ofText := .atom
  quoted s opening closing := .atom (opening ++ s.write .tight ++ closing)
  annotate := .named

def infix2 (symbol : String) (precedence : Nat) (side : Associativity) (a b : Symbol) : Symbol :=
  .infixed
    (a.write (.operand precedence (side == .left)) ++ symbol ++
      b.write (.operand precedence (side == .right)))
    precedence

def prefix1 (symbol : String) (precedence : Nat) (a : Symbol) : Symbol :=
  .infixed (symbol ++ a.write (.operand precedence false)) precedence

def infixOperator (symbol : String) (precedence : Nat) (associativity : Associativity) :
    Operator Symbol :=
  ⟨symbol, precedence, associativity,
    .binary fun a b => .ok (infix2 symbol precedence associativity a b)⟩

def mathOperator (op : MathOperator) : Operator Symbol :=
  ⟨op.symbol, op.precedence, .left, .binary fun a b => .ok (.math op a b)⟩

def prefixOperator (symbol : String) : Operator Symbol :=
  ⟨symbol, 4, .left, .unary fun a => .ok (prefix1 symbol 4 a)⟩

def literalRules : List (Rule Symbol) :=
  [ .literal "\"" "\"" (some "\\\""),
    .literal "'" "'" (some "\\'") ]

def operatorRules : List (Rule Symbol) :=
  [ .operator (infixOperator "^" 4 .right),
    .operator (mathOperator .multiply),
    .operator (mathOperator .divide),
    .operator (mathOperator .add),
    .twoWay (prefixOperator "-") (mathOperator .subtract),
    .operator (prefixOperator "!"),
    .operator (infixOperator "d" 5 .left),
    .operator (infixOperator "<" 3 .left),
    .operator (infixOperator "<=" 3 .left),
    .operator (infixOperator ">" 3 .left),
    .operator (infixOperator ">=" 3 .left),
    .operator (infixOperator "==" 3 .left),
    .operator (infixOperator "!=" 3 .left),
    .operator ⟨"AND", 1, .left, .binary fun a b => .ok (conjunction [a, b])⟩,
    .operator ⟨"OR", 1, .left, .binary fun a b => .ok (disjunction [a, b])⟩ ]

def constantRules : List (Rule Symbol) :=
  [ .constant "true" (.boolean true),
    .constant "false" (.boolean false),
    .constant "null" (.atom "null") ]

def functionRules : List (Rule Symbol) :=
  (["abs", "floor", "ceil", "signed", "ordinal", "mineach", "maxeach"].map fun name =>
    .function ⟨name, .unary fun a => .ok (.atom (call name [a]))⟩) ++
  (["clamp", "if"].map fun name =>
    .function ⟨name, .ternary fun a b c => .ok (.atom (call name [a, b, c]))⟩) ++
  (["min", "max", "sum", "concat"].map fun name =>
    .function ⟨name, .variadic fun arguments => .ok (.atom (call name arguments))⟩) ++
  [ .function ⟨"any", .variadic fun arguments => .ok (disjunction arguments)⟩,
    .function ⟨"all", .variadic fun arguments => .ok (conjunction arguments)⟩ ]

def referenceRules : List (Rule Symbol) :=
  [ .reference "@", .bracedReference "@\x7b" "\x7d", .comment "[" "]" ]

/-- The words of the language as operations on symbols. They are listed apart from the words that
compute with values. -/
def rules (o : Formula.Options) : List (Rule Symbol) :=
  (if o.ignoreBlanks then [.ignoreBlanks] else []) ++
  .listOperator (infixOperator "," listPrecedence .left) :: literalRules ++ operatorRules ++
  constantRules ++ functionRules ++ referenceRules

/-- A reference stands for its own text. -/
def resolver : Resolver Symbol := fun r => .ok (.value (.atom (r.opening ++ r.key ++ r.closing)))

end Symbol

namespace Formula

def symbolGrammar (o : Options) : Except Conflict (Grammar Symbol) :=
  Grammar.build (Symbol.rules o)

/-- The symbol of a formula that is not blank. -/
def symbol (o : Options) (text : String) : Except Report Symbol :=
  match symbolGrammar o with
  | .error e => .error ⟨text, .conflict e⟩
  | .ok g =>
    match g.compile text with
    | .error e => .error ⟨text, .parse e⟩
    | .ok p =>
      match p.evaluate [Symbol.resolver] with
      | .error e => .error ⟨text, .resolve e⟩
      | .ok s => .ok s

/-- A simpler text of the same formula; a blank text becomes empty. -/
def optimize (o : Options) (text : String) : Except Report String :=
  if Text.isBlankText text then .ok ""
  else (symbol o text).map Symbol.formulaText

end Formula

end FormulaEngine
