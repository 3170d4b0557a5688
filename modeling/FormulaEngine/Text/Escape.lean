import FormulaEngine.Text.Unprintable

/-!
# Text with escapes

Texts and characters between quotation marks, in a form that shows every character: those that
cannot be seen are written by their number.
-/
namespace FormulaEngine.Text

def byNumber (c : Char) : List Char :=
  '\\' :: 'u' :: '\x7b' :: Nat.toDigits 16 c.toNat ++ ['\x7d']

/-- A character between the given quotation marks. -/
def escapeChar (quote c : Char) : List Char :=
  if c = '\x00' then ['\\', '0']
  else if c = '\t' then ['\\', 't']
  else if c = '\r' then ['\\', 'r']
  else if c = '\n' then ['\\', 'n']
  else if c = '\\' ∨ c = quote then ['\\', c]
  else if isUnprintable c then byNumber c
  else [c]

def quotedText (cs : List Char) : String :=
  String.ofList ('"' :: cs.flatMap (escapeChar '"') ++ ['"'])

def quotedChar (c : Char) : String := String.ofList ('\'' :: escapeChar '\'' c ++ ['\''])

end FormulaEngine.Text
