import FormulaEngine.Proofs.Execution
import FormulaEngine.Proofs.Failures
import FormulaEngine.Proofs.Rearrangement

/-!
# Arities

The number of arguments of a variadic call comes right before the function, once for every call
whose bracket is closed, and nowhere else. A function that is announced like this finds the number
on top of the stack, so that a number is missing only where none was compiled.
-/
namespace FormulaEngine

variable {V : Type} {listOperator : Option (Operator V)}

section Runs

/-- An operation of the code answers with the error by itself, or a resolver does for one of its
references. -/
def Supplies (e : ResolveError) (scopes : List (Resolver V)) (code : List (Instruction V)) : Prop :=
  (∃ i ∈ code, ¬i.FailsOnly (· ≠ e)) ∨
    ∃ scope r, scopes.head? = some scope ∧ .reference r ∈ code ∧ scope r = .error e

/-- An instruction of this name takes any number of arguments, and none is right before it. -/
def LacksArity (name : String) (previous : Option (Instruction V)) (code : List (Instruction V)) :
    Prop :=
  (∃ op, .operator op ∈ code ∧ op.operation.isVariadic = true ∧ op.symbol = name) ∨
    ∃ before f after, code = before ++ .function f :: after ∧ f.operation.isVariadic = true ∧
      f.name = name ∧ ∀ n, before.getLast?.or previous ≠ some (.arity n)

variable {name : String}

theorem Supplies.cons {e : ResolveError} {scopes : List (Resolver V)} {code : List (Instruction V)}
    (h : Supplies e scopes code) (i : Instruction V) : Supplies e scopes (i :: code) := by
  rcases h with ⟨j, hj, hfails⟩ | ⟨scope, r, hscope, hr, hfails⟩
  · exact .inl ⟨j, List.mem_cons_of_mem _ hj, hfails⟩
  · exact .inr ⟨scope, r, hscope, List.mem_cons_of_mem _ hr, hfails⟩

theorem LacksArity.cons {previous : Option (Instruction V)} {i : Instruction V}
    {code : List (Instruction V)} (h : LacksArity name (some i) code) :
    LacksArity name previous (i :: code) := by
  rcases h with ⟨op, hop, hvariadic⟩ | ⟨before, f, after, rfl, hvariadic, hname, hnone⟩
  · exact .inl ⟨op, List.mem_cons_of_mem _ hop, hvariadic⟩
  · refine .inr ⟨i :: before, f, after, rfl, hvariadic, hname, fun n => ?_⟩
    have := hnone n
    cases before with
    | nil => exact this
    | cons j before => simpa [List.getLast?_cons] using this

end Runs

end FormulaEngine
