/-!
# Leading and trailing pieces of a text

Delimiters are taken off a text only where they are present.
-/
namespace FormulaEngine.Text

/-- What follows `start` in `cs`, or nothing when `cs` does not begin with `start`. -/
def afterPrefix? : (start cs : List Char) → Option (List Char)
  | [], cs => some cs
  | _ :: _, [] => none
  | s :: start, c :: cs => if s = c then afterPrefix? start cs else none

theorem afterPrefix?_append (start cs : List Char) :
    afterPrefix? start (start ++ cs) = some cs := by
  induction start with
  | nil => rfl
  | cons s start ih => simp [afterPrefix?, ih]

def dropStart (start cs : List Char) : List Char := (afterPrefix? start cs).getD cs

def dropEnd (stop cs : List Char) : List Char := (dropStart stop.reverse cs.reverse).reverse

/-- The text between the delimiters; a delimiter that is missing is not taken off. -/
def between (start stop cs : List Char) : List Char := dropEnd stop (dropStart start cs)

theorem between_append (start body stop : List Char) :
    between start stop (start ++ (body ++ stop)) = body := by
  simp [between, dropEnd, dropStart, afterPrefix?_append, List.reverse_append]

/-- Drops every `c` that the text ends with. -/
def dropTrailing (c : Char) (cs : List Char) : List Char :=
  (cs.reverse.dropWhile (· == c)).reverse

end FormulaEngine.Text
