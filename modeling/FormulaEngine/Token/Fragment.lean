import FormulaEngine.Token.Matcher

/-!
# Fragments

Descriptions of what a token looks like, put together from steps.
-/
namespace FormulaEngine

inductive Fragment where
  | step (s : Step)
  | empty
  | append (first second : Fragment)
  | optional (body : Fragment)
  deriving DecidableEq, Repr

namespace Fragment

def just (c : Char) : Fragment := .step (.one (.char c))

def anyOf (allowed : List Char) : Fragment := .step (.one (.anyOf allowed))

def sequence (parts : List Fragment) : Fragment := parts.foldr .append .empty

def term (cs : List Char) : Fragment := sequence (cs.map just)

def stopAt (close : List Char) (escape : Option (List Char)) : Fragment :=
  .step (.stopAt close escape)

/-- Everything from `opening` up to an unescaped `closing`, both included. -/
def literal (opening closing : List Char) (escape : Option (List Char)) : Fragment :=
  sequence [term opening, stopAt closing escape, term closing]

/-- No text is as long as this, so that it bounds no run. -/
def unbounded : Nat := 0xFFFFFFFFFFFFFFFF

/-- Repeats a single character; any other fragment stays as it is. -/
def repeatsBetween (min max : Nat) : Fragment → Fragment
  | .step (.one m) => .step (.run m min max)
  | .step (.run m _ _) => .step (.run m min max)
  | f => f

def repeats (min : Nat) (f : Fragment) : Fragment := f.repeatsBetween min unbounded

end Fragment

def Step.text : Step → String
  | .root => ""
  | .one m => m.text
  | .run m min max =>
    m.text ++ "\x7b" ++ toString min ++ "," ++
      (if max = Fragment.unbounded then "" else toString max) ++ "\x7d"
  | .stopAt close _ => "..." ++ String.ofList close

namespace Fragment

def text : Fragment → String
  | .step s => s.text
  | .empty => ""
  | .append first second => first.text ++ second.text
  | .optional body => "(" ++ body.text ++ ")?"

def digitChars : List Char := "0123456789".toList

def alphaChars : List Char :=
  "abcdefghijklmnopqrstuvwxyzABCDEFGHIJKLMNOPQRSTUVWXYZ".toList

def wordChars : List Char := alphaChars ++ digitChars ++ ['_']

def keyChars : List Char := wordChars ++ [':', '.', '#', '*']

def bracedKeyChars : List Char := keyChars ++ ['-', ' ']

def blankChars : List Char := [' ', '\t', '\r', '\n']

def digits : Fragment := (anyOf digitChars).repeats 1

/-- Integers have no sign: a minus is an operator. -/
def integer : Fragment := digits

def decimal : Fragment := sequence [integer, just '.', digits]

def alpha : Fragment := anyOf alphaChars

def key : Fragment := (anyOf keyChars).repeats 1

/-- The characters of a key that is closed by a delimiter. -/
def bracedKey : Fragment := (anyOf bracedKeyChars).repeats 1

def blanks : Fragment := (anyOf blankChars).repeats 1

end Fragment

end FormulaEngine
