import FormulaEngine.Json.Basic
import FormulaEngine.Text.Affix

/-!
# Reading JSON

Every reader takes its part off the front of a text and answers it with the rest. Blanks may stand
around every part but not inside of strings and numbers.
-/
namespace FormulaEngine

def isJsonBlank (c : Char) : Bool := c == ' ' || c == '\n' || c == '\t' || c == '\r'

def skipBlanks (cs : List Char) : List Char := cs.dropWhile isJsonBlank

namespace JsonString

def hexValue? (c : Char) : Option Nat :=
  if c.isDigit then some (c.toNat - '0'.toNat)
  else if 'a' ≤ c ∧ c ≤ 'f' then some (c.toNat - 'a'.toNat + 10)
  else if 'A' ≤ c ∧ c ≤ 'F' then some (c.toNat - 'A'.toNat + 10)
  else none

def hexNumber? (a b c d : Char) : Option Nat := do
  let high := (← hexValue? a) * 16 + (← hexValue? b)
  let low := (← hexValue? c) * 16 + (← hexValue? d)
  return high * 256 + low

def shortEscape? (c : Char) : Option Nat :=
  if c = '"' then some 0x22
  else if c = '\\' then some 0x5C
  else if c = '/' then some 0x2F
  else if c = 'b' then some 8
  else if c = 'f' then some 12
  else if c = 'n' then some 10
  else if c = 'r' then some 13
  else if c = 't' then some 9
  else none

def read? : List Char → Option (JsonString × List Char)
  | [] => none
  | '"' :: rest => some ([], rest)
  | '\\' :: 'u' :: a :: b :: c :: d :: rest =>
    match hexNumber? a b c d, read? rest with
    | some n, some (units, rest) => some (n :: units, rest)
    | _, _ => none
  | '\\' :: e :: rest =>
    match shortEscape? e, read? rest with
    | some n, some (units, rest) => some (n :: units, rest)
    | _, _ => none
  | c :: rest =>
    if c = '\\' ∨ c.toNat < 0x20 then none
    else (read? rest).map fun (units, rest) => (c.toNat :: units, rest)

end JsonString

/-- The parts of a number as it is written: digits before and after the point, and an exponent. -/
structure JsonNumber where
  negative : Bool
  whole : List Char
  places : Option (List Char)
  /-- The flag tells a negative exponent. -/
  exponent : Option (Bool × List Char)
  deriving DecidableEq, Repr

namespace JsonNumber

def readDigits? (cs : List Char) : Option (List Char × List Char) :=
  let digits := cs.takeWhile Char.isDigit
  if digits.isEmpty then none else some (digits, cs.dropWhile Char.isDigit)

def readPlaces? : List Char → Option (Option (List Char) × List Char)
  | '.' :: cs => (readDigits? cs).map fun (digits, rest) => (some digits, rest)
  | cs => some (none, cs)

def readExponent? : List Char → Option (Option (Bool × List Char) × List Char)
  | [] => some (none, [])
  | c :: cs =>
    if c = 'e' ∨ c = 'E' then
      match cs with
      | '-' :: cs => (readDigits? cs).map fun (digits, rest) => (some (true, digits), rest)
      | '+' :: cs => (readDigits? cs).map fun (digits, rest) => (some (false, digits), rest)
      | cs => (readDigits? cs).map fun (digits, rest) => (some (false, digits), rest)
    else some (none, c :: cs)

/-- Zero is the only number whose digits begin with a zero. -/
def readMagnitude? (negative : Bool) (cs : List Char) : Option (JsonNumber × List Char) := do
  let (whole, cs) ← readDigits? cs
  if whole.head? = some '0' ∧ whole ≠ ['0'] then none
  else
    let (places, cs) ← readPlaces? cs
    let (exponent, cs) ← readExponent? cs
    return (⟨negative, whole, places, exponent⟩, cs)

def read? : List Char → Option (JsonNumber × List Char)
  | '-' :: cs => readMagnitude? true cs
  | cs => readMagnitude? false cs

end JsonNumber

namespace JsonTree

mutual

/-- Reads one document; the first argument bounds its depth and length. -/
def readTree? : Nat → List Char → Option (JsonTree × List Char)
  | 0, _ => none
  | fuel + 1, cs =>
    match skipBlanks cs with
    | '"' :: cs => (JsonString.read? cs).map fun (units, rest) => (string units, rest)
    | '[' :: cs =>
      match skipBlanks cs with
      | ']' :: cs => some (array [], cs)
      | cs => (readItems? fuel cs).map fun (items, rest) => (array items, rest)
    | '\x7b' :: cs =>
      match skipBlanks cs with
      | '\x7d' :: cs => some (object [], cs)
      | cs => (readFields? fuel cs).map fun (fields, rest) => (object fields, rest)
    | 'n' :: cs => (Text.afterPrefix? "ull".toList cs).map fun rest => (null, rest)
    | 't' :: cs => (Text.afterPrefix? "rue".toList cs).map fun rest => (boolean true, rest)
    | 'f' :: cs => (Text.afterPrefix? "alse".toList cs).map fun rest => (boolean false, rest)
    | cs =>
      (JsonNumber.read? cs).map fun (_, rest) => (number (cs.take (cs.length - rest.length)), rest)

def readItems? : Nat → List Char → Option (List JsonTree × List Char)
  | 0, _ => none
  | fuel + 1, cs =>
    match readTree? fuel cs with
    | none => none
    | some (t, rest) =>
      match skipBlanks rest with
      | ',' :: rest => (readItems? fuel rest).map fun (items, rest) => (t :: items, rest)
      | ']' :: rest => some ([t], rest)
      | _ => none

def readFields? : Nat → List Char → Option (List (JsonString × JsonTree) × List Char)
  | 0, _ => none
  | fuel + 1, cs =>
    match skipBlanks cs with
    | '"' :: cs =>
      match JsonString.read? cs with
      | none => none
      | some (key, rest) =>
        match skipBlanks rest with
        | ':' :: rest =>
          match readTree? fuel rest with
          | none => none
          | some (t, rest) =>
            match skipBlanks rest with
            | ',' :: rest =>
              (readFields? fuel rest).map fun (fields, rest) => ((key, t) :: fields, rest)
            | '\x7d' :: rest => some ([(key, t)], rest)
            | _ => none
        | _ => none
    | _ => none

end

def ofText? (cs : List Char) : Option JsonTree :=
  match readTree? (2 * cs.length + 2) cs with
  | some (t, rest) => if (skipBlanks rest).isEmpty then some t else none
  | none => none

end JsonTree

end FormulaEngine
