import FormulaEngine.Context.Basic

/-!
# Changing a context

The changes that can be made to a context, what each of them answers, and the history of a context
whose former versions stay readable.
-/
namespace FormulaEngine

inductive Update where
  | set (key : String) (b : Binding)
  | remove (key : String)
  | rename (key target : String)
  | push (key : String) (item : Binding)

inductive Reply where
  | previous (b : Option Binding)
  | renamed (found : Bool)
  | nothing

namespace Update

def apply (ctx : Context) : Update → Context
  | set key b => ctx.set key b
  | remove key => ctx.remove key
  | rename key target => ctx.rename key target
  | push key item => ctx.push key item

def reply (ctx : Context) : Update → Reply
  | set key _ => .previous (ctx.lookup key)
  | remove key => .previous (ctx.lookup key)
  | rename key _ => .renamed (ctx.contains key)
  | push _ _ => .nothing

end Update

/-- All versions of a context, numbered from zero, and the one in use. -/
structure History where
  first : Context
  later : List Context
  current : Nat

namespace History

def start (ctx : Context) : History := ⟨ctx, [], 0⟩

def version? (h : History) (n : Nat) : Option Context := (h.first :: h.later)[n]?

def now (h : History) : Context := (h.version? h.current).getD h.first

/-- Changes the version in use and appends the outcome, which is then in use. -/
def update (h : History) (u : Update) : History :=
  ⟨h.first, h.later ++ [u.apply h.now], h.later.length + 1⟩

def use (h : History) (n : Nat) : History := { h with current := n }

theorem version?_update_last (h : History) (u : Update) :
    (h.update u).version? (h.later.length + 1) = some (u.apply h.now) := by
  simp [update, version?]

theorem version?_update {h : History} {n : Nat} {ctx : Context} (u : Update)
    (hn : h.version? n = some ctx) : (h.update u).version? n = some ctx := by
  simp only [version?, update] at *
  rw [← List.cons_append]
  exact List.getElem?_append_left (List.getElem?_eq_some_iff.1 hn).1 ▸ hn

end History

end FormulaEngine
