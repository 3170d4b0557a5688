import FormulaEngine.Proofs.Agreement

/-!
# Strictness

Strict arithmetic refuses what lenient arithmetic takes for NaN, and agrees with it on everything
else. Two runs of a formula, a strict and a lenient one, are therefore in the same state up to the
first refusal, which ends the strict run.
-/
namespace FormulaEngine

/-- The first outcome is the second one, unless it refuses a text that is no number. -/
def OnlyRefuses {α : Type} (x y : Outcome α) : Prop :=
  x = y ∨ ∃ text, x = .error (.notANumber text)

namespace OnlyRefuses

variable {α β : Type}

theorem refl (x : Outcome α) : OnlyRefuses x x := .inl rfl

theorem bind {x y : Outcome α} {f g : α → Outcome β} (first : OnlyRefuses x y)
    (next : ∀ a, OnlyRefuses (f a) (g a)) : OnlyRefuses (x >>= f) (y >>= g) := by
  rcases first with rfl | ⟨text, rfl⟩
  · cases x with
    | ok a => exact next a
    | error e => exact refl _
  · exact .inr ⟨text, rfl⟩

theorem foldlM {f g : β → α → Outcome β} (step : ∀ b a, OnlyRefuses (f b a) (g b a)) (b : β)
    (l : List α) : OnlyRefuses (l.foldlM f b) (l.foldlM g b) := by
  induction l generalizing b with
  | nil => exact refl _
  | cons a l ih => exact (step b a).bind ih

end OnlyRefuses

namespace Formula

/-- Leniency has an effect only where strictness refuses. -/
theorem onlyRefuses_lenient (outcome : Outcome Value) :
    OnlyRefuses (lenient true outcome) (lenient false outcome) := by
  cases outcome with
  | ok v => exact .refl _
  | error e =>
    cases e with
    | notANumber text => exact .inr ⟨text, rfl⟩
    | _ => exact .refl _

theorem onlyRefuses_addNext (total v : Value) :
    OnlyRefuses (addNext true total v) (addNext false total v) := by
  unfold addNext
  cases total.isNull <;> cases v.isNull
  · exact onlyRefuses_lenient _
  · exact onlyRefuses_lenient _
  · exact onlyRefuses_lenient _
  · exact .refl _

theorem onlyRefuses_sum (vs : List Value) : OnlyRefuses (sum true vs) (sum false vs) := by
  cases vs with
  | nil => exact .refl _
  | cons v vs => exact .foldlM onlyRefuses_addNext v vs

theorem onlyRefuses_binary (op : BinaryOperator) (a b : Value) :
    OnlyRefuses (binary true op a b) (binary false op a b) := by
  cases op with
  | power => exact onlyRefuses_lenient _
  | multiply => exact onlyRefuses_lenient _
  | divide => exact onlyRefuses_lenient _
  | add => exact onlyRefuses_lenient _
  | subtract => exact onlyRefuses_lenient _
  | _ => exact .refl _

theorem onlyRefuses_unary (op : UnaryOperator) (a : Value) :
    OnlyRefuses (unary true op a) (unary false op a) := by
  cases op with
  | negate => exact onlyRefuses_lenient _
  | not => exact .refl _

theorem onlyRefuses_functionN (f : VariadicFunction) (vs : List Value) :
    OnlyRefuses (functionN true f vs) (functionN false f vs) := by
  cases f with
  | sum => exact onlyRefuses_sum _
  | _ => exact .refl _

end Formula

section Invocations

variable {V : Type} (name : String) (stack : Stack V)

theorem onlyRefuses_invoke_unary {f g : V → Outcome V} (h : ∀ a, OnlyRefuses (f a) (g a)) :
    OnlyRefuses (Operation.invoke name (.unary f) stack)
      (Operation.invoke name (.unary g) stack) :=
  (OnlyRefuses.refl (popOperand name 1 stack)).bind fun p => (h p.1).bind fun _ => .refl _

theorem onlyRefuses_invoke_binary {f g : V → V → Outcome V}
    (h : ∀ a b, OnlyRefuses (f a b) (g a b)) :
    OnlyRefuses (Operation.invoke name (.binary f) stack)
      (Operation.invoke name (.binary g) stack) :=
  (OnlyRefuses.refl (popOperand name 1 stack)).bind fun p =>
    (OnlyRefuses.refl (popOperand name 2 p.2)).bind fun q =>
      (h q.1 p.1).bind fun _ => .refl _

theorem onlyRefuses_invoke_variadic {f g : List V → Outcome V}
    (h : ∀ arguments, OnlyRefuses (f arguments) (g arguments)) :
    OnlyRefuses (Operation.invoke name (.variadic f) stack)
      (Operation.invoke name (.variadic g) stack) := by
  match stack with
  | [] => exact .refl _
  | .value v :: stack => exact .refl _
  | .arity n :: stack =>
    exact (OnlyRefuses.refl (popArguments name 1 n [] stack)).bind fun p =>
      (h p.1).bind fun _ => .refl _

end Invocations

open Formula

theorem onlyRefuses_execute_singleton (scopes : List (Resolver Value)) (c : Code)
    (stack : Stack Value) :
    OnlyRefuses (execute scopes [c.instruction (arithmetic true)] stack)
      (execute scopes [c.instruction (arithmetic false)] stack) := by
  cases c with
  | sign s =>
    rw [execute_operation rfl, execute_operation rfl]
    cases s with
    | before op => exact onlyRefuses_invoke_unary _ _ (onlyRefuses_unary op)
    | between op => exact onlyRefuses_invoke_binary _ _ (onlyRefuses_binary op)
  | callee f =>
    cases f with
    | many f =>
      rw [execute_operation rfl, execute_operation rfl]
      exact onlyRefuses_invoke_variadic _ _ (onlyRefuses_functionN f)
    | _ => exact .inl (execute_singleton_congr rfl)
  | literal l => cases l <;> exact .inl (execute_singleton_congr rfl)
  | _ => exact .inl (execute_singleton_congr rfl)

theorem onlyRefuses_execute (scopes : List (Resolver Value)) (code : List Code)
    (stack : Stack Value) :
    OnlyRefuses (execute scopes (instructions (arithmetic true) code) stack)
      (execute scopes (instructions (arithmetic false) code) stack) := by
  induction code generalizing stack with
  | nil => exact .refl _
  | cons c code ih =>
    simp only [instructions, List.map_cons]
    rw [execute_cons, execute_cons _ (c.instruction (arithmetic false))]
    exact (onlyRefuses_execute_singleton scopes c stack).bind ih

theorem onlyRefuses_evaluate (scopes : List (Resolver Value)) (code : List Code) (text : String) :
    OnlyRefuses ((Program.mk (instructions (arithmetic true) code) text).evaluate scopes)
      ((Program.mk (instructions (arithmetic false) code) text).evaluate scopes) := by
  rw [evaluate_eq_execute, evaluate_eq_execute]
  exact (onlyRefuses_execute scopes code []).bind fun _ => .refl _

namespace Formula

/-- Strict arithmetic only rejects: unless it refuses a text that is no number, it evaluates every
formula to the same value or the same report as lenient arithmetic does. -/
theorem evaluate_strict_eq_lenient_or_refuses (ignoreBlanks : Bool) (ctx : Context)
    (text : String) :
    (evaluate ⟨true, ignoreBlanks⟩ ctx text = evaluate ⟨false, ignoreBlanks⟩ ctx text ∨
      ∃ refused, evaluate ⟨true, ignoreBlanks⟩ ctx text =
        .error ⟨text, .resolve (.notANumber refused)⟩) ∧
    ∀ v, evaluate ⟨true, ignoreBlanks⟩ ctx text = .ok v →
      evaluate ⟨false, ignoreBlanks⟩ ctx text = .ok v := by
  have hsame : evaluate ⟨true, ignoreBlanks⟩ ctx text = evaluate ⟨false, ignoreBlanks⟩ ctx text ∨
      ∃ refused, evaluate ⟨true, ignoreBlanks⟩ ctx text =
        .error ⟨text, .resolve (.notANumber refused)⟩ := by
    cases blank : Text.isBlankText text with
    | true => exact .inl (by rw [evaluate_of_blank blank, evaluate_of_blank blank])
    | false =>
      obtain ⟨g, hg, speaks⟩ := exists_grammar ⟨true, ignoreBlanks⟩ (arithmetic true)
      obtain ⟨h, hh, speaks'⟩ := exists_grammar ⟨false, ignoreBlanks⟩ (arithmetic false)
      rcases speaks.compile_cases speaks' text with ⟨e, hp, hq⟩ | ⟨code, hp, hq⟩
      · exact .inl (by rw [evaluate_of_compile_error blank hg hp,
          evaluate_of_compile_error blank hh hq])
      · rw [evaluate_of_compile blank hg hp, evaluate_of_compile blank hh hq]
        rcases onlyRefuses_evaluate ctx.scopes code text with heq | ⟨refused, hrefused⟩
        · exact .inl (by rw [heq])
        · exact .inr ⟨refused, by rw [hrefused]; rfl⟩
  refine ⟨hsame, fun v hv => ?_⟩
  rcases hsame with heq | ⟨refused, hrefused⟩
  · rw [← heq, hv]
  · rw [hrefused] at hv
    cases hv

end Formula

end FormulaEngine
