import FormulaEngine.Context.Basic
import FormulaEngine.Context.Wildcard

/-!
# Reading a context

A key that is bound to a formula stands for that formula, which is spliced into the one that
refers to it; any other key stands for the value of its binding. A pattern stands for the list of
the values of all keys that it covers, in the order of the keys.

Formulas are nested no deeper than there are keys, unless one of them refers to itself.
-/
namespace FormulaEngine

namespace Context

/-- The keys that a pattern covers; without a star it is a key itself. -/
def keysMatching (ctx : Context) (pattern : String) : List String :=
  if Wildcard.isPattern pattern.toList then
    ctx.keys.filter fun k => Wildcard.accepts pattern.toList k.toList
  else if ctx.contains pattern then [pattern] else []

/-- The value of a key; an unbound key reads as null. -/
def getWith (ctx : Context) (scopes : List (Resolver Value)) (key : String) : Outcome Value :=
  match ctx.lookup key with
  | some b => b.resolveWith scopes
  | none => .ok .null

def getEach (ctx : Context) (scopes : List (Resolver Value)) :
    List String → Outcome (List (String × Value))
  | [] => .ok []
  | k :: ks =>
    match ctx.getWith scopes k with
    | .error e => .error e
    | .ok v =>
      match ctx.getEach scopes ks with
      | .error e => .error e
      | .ok found => .ok ((k, v) :: found)

def searchWith (ctx : Context) (scopes : List (Resolver Value)) (pattern : String) :
    Outcome (List (String × Value)) :=
  ctx.getEach scopes (ctx.keysMatching pattern)

def resolver (ctx : Context) (deeper : List (Resolver Value)) : Resolver Value := fun r =>
  if Wildcard.isPattern r.key.toList then
    match ctx.searchWith deeper r.key with
    | .error e => .error e
    | .ok found => .ok (.value (.list (found.map Prod.snd)))
  else
    match ctx.lookup r.key with
    | some (.formula p) => .ok (.splice p)
    | some b =>
      match b.resolveWith deeper with
      | .error e => .error e
      | .ok v => .ok (.value v)
    | none => .ok (.value .null)

/-- Resolvers for formulas that are nested at most `depth` deep. -/
def scopesTo (ctx : Context) : (depth : Nat) → List (Resolver Value)
  | 0 => []
  | depth + 1 =>
    let deeper := ctx.scopesTo depth
    ctx.resolver deeper :: deeper

def scopes (ctx : Context) : List (Resolver Value) := ctx.scopesTo (ctx.size + 1)

def get (ctx : Context) (key : String) : Outcome Value := ctx.getWith ctx.scopes key

def search (ctx : Context) (pattern : String) : Outcome (List (String × Value)) :=
  ctx.searchWith ctx.scopes pattern

end Context

def Binding.resolve (b : Binding) (ctx : Context) : Outcome Value := b.resolveWith ctx.scopes

end FormulaEngine
