import FormulaEngine.Token.Cursor

/-!
# Matchers

The steps that a token is matched by: a single character, a greedy run of characters, or everything
up to a closing delimiter.
-/
namespace FormulaEngine

inductive Matcher where
  | char (c : Char)
  | anyOf (allowed : List Char)
  deriving DecidableEq, Repr

namespace Matcher

def accepts : Matcher → Char → Bool
  | char c, x => c == x
  | anyOf allowed, x => allowed.contains x

def text : Matcher → String
  | char c => String.singleton c
  | anyOf allowed => "[" ++ String.ofList allowed ++ "]"

end Matcher

inductive Step where
  | root
  | one (m : Matcher)
  /-- Takes as many characters as match, at most `max`, and is blocked below `min`. -/
  | run (m : Matcher) (min max : Nat)
  /-- Takes what stands before the first `close` that does not complete an `escape`. -/
  | stopAt (close : List Char) (escape : Option (List Char))
  deriving DecidableEq, Repr

inductive Advance where
  | blocked
  /-- So many characters, after which other steps may follow. -/
  | reached (length : Nat)
  /-- The closing delimiter is missing: all the rest of the text, and nothing may follow. -/
  | exhausted (length : Nat)
  deriving DecidableEq, Repr

def Matcher.runLength (m : Matcher) : (max : Nat) → List Char → Nat
  | 0, _ => 0
  | _ + 1, [] => 0
  | max + 1, c :: cs => if m.accepts c then m.runLength max cs + 1 else 0

/-- The next character completes the spelling of `escape`. -/
def isEscaped (c : Cursor) : Option (List Char) → Bool
  | none => false
  | some [] => false
  | some (e :: escape) =>
    escape.length ≤ c.behind.length &&
      (e :: escape).isPrefixOf ((c.behind.take escape.length).reverse ++ c.ahead)

/-- The number of characters before the first unescaped `close`. -/
def findClose (close : List Char) (escape : Option (List Char)) :
    (behind ahead : List Char) → Option Nat
  | _, [] => none
  | behind, x :: ahead =>
    if close.isPrefixOf (x :: ahead) && !isEscaped ⟨behind, x :: ahead⟩ escape then some 0
    else (findClose close escape (x :: behind) ahead).map (· + 1)

namespace Step

def advance (s : Step) (c : Cursor) : Advance :=
  match s with
  | root => .reached 0
  | one m =>
    match c.ahead with
    | x :: _ => if m.accepts x then .reached 1 else .blocked
    | [] => .blocked
  | run m min max =>
    let n := m.runLength max c.ahead
    if n < min then .blocked else .reached n
  | stopAt close escape =>
    match findClose close escape c.behind c.ahead with
    | some n => .reached n
    | none => .exhausted c.ahead.length

end Step

end FormulaEngine
