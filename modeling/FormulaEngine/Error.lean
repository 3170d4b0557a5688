/-!
# Errors

What can go wrong when a grammar is built, a text is read and a program is run. Every cause has a
code, a message and most have a hint; a report ties a cause to the place in the text it is about.
-/
namespace FormulaEngine

/-- No token starts at the character with number `index` of `text`. -/
structure ParseError where
  text : String
  index : Nat
  found : Char
  deriving DecidableEq, Repr

inductive ResolveError where
  /-- Operands are numbered from the last one on. -/
  | missingOperand (name : String) (position : Nat)
  | missingArity (name : String)
  | notANumber (text : String)
  | invalidProgram (remaining : Nat)
  | invalidPattern (pattern : String)
  /-- References are nested deeper than there are bindings to refer to. -/
  | circularReference
  deriving DecidableEq, Repr

/-- Two rules of a grammar are completed by the same characters. -/
structure Conflict where
  pattern : String
  deriving DecidableEq, Repr

inductive Cause where
  | parse (e : ParseError)
  | resolve (e : ResolveError)
  | conflict (e : Conflict)
  deriving DecidableEq, Repr

def ParseError.message (e : ParseError) : String :=
  s!"Parse error at index {e.index} of \"{e.text}\": did not expect character: '{e.found}'" ++
  s!"\n{e.text}\n" ++ String.ofList (List.replicate e.index ' ' ++ ['^'])

def ResolveError.message : ResolveError → String
  | .missingOperand name position => s!"Missing parameter #{position} for \"{name}\""
  | .missingArity name => s!"Missing arity count for \"{name}\""
  | .notANumber text => s!"Cannot convert '{text}' to a number"
  | .invalidProgram remaining =>
    s!"Invalid program, expected exactly one value but {remaining} remained"
  | .invalidPattern pattern => s!"Invalid key pattern '{pattern}'"
  | .circularReference => "A formula refers to itself"

def Conflict.message (e : Conflict) : String :=
  "Conflicting tokens for pattern `" ++ e.pattern ++ "`"

def ResolveError.code : ResolveError → String
  | .missingOperand .. => "ResolveError::MissingOperand"
  | .missingArity .. => "ResolveError::MissingArity"
  | .notANumber .. => "ResolveError::NotANumber"
  | .invalidProgram .. => "ResolveError::InvalidProgram"
  | .invalidPattern .. => "ResolveError::InvalidPattern"
  | .circularReference => "ResolveError::CircularReference"

def Conflict.code (_ : Conflict) : String := "ConfigurationError::ConflictingTokens"

namespace Cause

def message : Cause → String
  | .parse e => e.message
  | .resolve e => e.message
  | .conflict e => e.message

def code : Cause → String
  | .parse _ => "ParseError::UnexpectedCharacter"
  | .resolve e => e.code
  | .conflict e => e.code

def help : Cause → Option String
  | .parse e => some s!"'{e.found}' does not start any known token."
  | .resolve (.missingOperand name _) =>
    some s!"'{name}' was given fewer operands than it takes. Check for a dangling operator."
  | .resolve (.missingArity name) =>
    some s!"'{name}' takes a variable number of arguments and must be called with parentheses."
  | .resolve (.notANumber _) => some "A text value was used where a number is required."
  | .resolve (.invalidProgram _) =>
    some "The formula does not combine into a single value. Check for missing operators."
  | .resolve (.invalidPattern _) => none
  | .resolve .circularReference => none
  | .conflict _ =>
    some "Two grammar registrations complete on the same pattern; rename one of them."

end Cause

/-- A stretch of a text, counted in UTF-8 bytes. -/
structure Span where
  offset : Nat
  length : Nat
  deriving DecidableEq, Repr

def byteLength (cs : List Char) : Nat := cs.foldr (fun c total => c.utf8Size + total) 0

/-- The character with number `index`, or the byte after the end of the text. -/
def Span.ofIndex (cs : List Char) (index : Nat) : Span :=
  match cs[index]? with
  | some c => ⟨byteLength (cs.take index), c.utf8Size⟩
  | none => ⟨byteLength cs, 1⟩

/-- The whole text, which counts as at least one byte long. -/
def Span.whole (cs : List Char) : Span := ⟨0, max (byteLength cs) 1⟩

structure Report where
  source : String
  cause : Cause
  deriving DecidableEq, Repr

def Report.span (r : Report) : Span :=
  match r.cause with
  | .parse e => Span.ofIndex r.source.toList e.index
  | _ => Span.whole r.source.toList

def Report.labels (r : Report) : List (String × Span) := [(r.cause.message, r.span)]

end FormulaEngine
