/-!
# Wildcards

In a pattern a star stands for any run of characters on one line. Every other character stands for
itself.
-/
namespace FormulaEngine

namespace Wildcard

def star : Char := '*'

def isPattern (cs : List Char) : Bool := cs.contains star

/-- A star does not reach beyond the end of a line. -/
def spans (c : Char) : Bool := c != '\n'

/-- What is left of a text after a star that covers some of its first characters. -/
def remainders : List Char → List (List Char)
  | [] => [[]]
  | c :: cs => (c :: cs) :: if spans c then remainders cs else []

def accepts : (pattern text : List Char) → Bool
  | [], text => text.isEmpty
  | p :: pattern, text =>
    if p = star then (remainders text).any (accepts pattern)
    else
      match text with
      | [] => false
      | c :: text => p == c && accepts pattern text

end Wildcard

end FormulaEngine
