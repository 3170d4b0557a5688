/-!
# JSON

JSON documents and their compact text. A string is a list of code units: code points, or halves of
surrogate pairs where escapes name them. A number is kept as it is written.
-/
namespace FormulaEngine

abbrev JsonString := List Nat

inductive JsonTree where
  | null
  | boolean (b : Bool)
  | number (literal : List Char)
  | string (units : JsonString)
  | array (items : List JsonTree)
  | object (fields : List (JsonString × JsonTree))

namespace JsonString

def isHigh (n : Nat) : Bool := 0xD800 ≤ n && n ≤ 0xDBFF

def isLow (n : Nat) : Bool := 0xDC00 ≤ n && n ≤ 0xDFFF

/-- The code point of a surrogate pair. -/
def join (high low : Nat) : Nat := 0x10000 + (high - 0xD800) * 0x400 + (low - 0xDC00)

def ofChars (cs : List Char) : JsonString := cs.map Char.toNat

/-- The characters of a string, unless half of a surrogate pair stands alone in it. -/
def toChars? : JsonString → Option (List Char)
  | [] => some []
  | [n] => if isHigh n || isLow n then none else some [Char.ofNat n]
  | n :: m :: rest =>
    if isHigh n && isLow m then (toChars? rest).map (Char.ofNat (join n m) :: ·)
    else if isHigh n || isLow n then none
    else (toChars? (m :: rest)).map (Char.ofNat n :: ·)

def toText? (s : JsonString) : Option String := s.toChars?.map String.ofList

def hexDigits (n : Nat) : List Char := (Nat.toDigits 16 n).leftpad 4 '0'

def byNumber (n : Nat) : List Char := '\\' :: 'u' :: hexDigits n

/-- Escapes what cannot stand in a string, and nothing else. -/
def writeUnit (n : Nat) : List Char :=
  if n = 0x22 then ['\\', '"']
  else if n = 0x5C then ['\\', '\\']
  else if n = 8 then ['\\', 'b']
  else if n = 9 then ['\\', 't']
  else if n = 10 then ['\\', 'n']
  else if n = 12 then ['\\', 'f']
  else if n = 13 then ['\\', 'r']
  else if n < 0x20 || isHigh n || isLow n then byNumber n
  else [Char.ofNat n]

def write (s : JsonString) : List Char := '"' :: s.flatMap writeUnit ++ ['"']

end JsonString

namespace JsonTree

mutual

def write : JsonTree → List Char
  | null => "null".toList
  | boolean b => if b then "true".toList else "false".toList
  | number literal => literal
  | string units => units.write
  | array items => '[' :: writeItems items ++ [']']
  | object fields => '\x7b' :: writeFields fields ++ ['\x7d']

def writeItems : List JsonTree → List Char
  | [] => []
  | [t] => t.write
  | t :: u :: rest => t.write ++ ',' :: writeItems (u :: rest)

def writeFields : List (JsonString × JsonTree) → List Char
  | [] => []
  | [(key, t)] => key.write ++ ':' :: t.write
  | (key, t) :: f :: rest => key.write ++ ':' :: t.write ++ ',' :: writeFields (f :: rest)

end

end JsonTree

end FormulaEngine
