import FormulaEngine.Program.Machine

/-!
# Execution

What code does to a stack, by recursion on the code: a reference to a program does what that program
does. The machine, which keeps the code that is left to run in frames, computes the same. Code that
succeeds on a stack does the same on top of any other stack.
-/
namespace FormulaEngine

section Outcomes

variable {α β : Type}

@[simp] theorem ok_bind (a : α) (f : α → Outcome β) : ((.ok a : Outcome α) >>= f) = f a := rfl

@[simp] theorem error_bind (e : ResolveError) (f : α → Outcome β) :
    ((.error e : Outcome α) >>= f) = .error e := rfl

theorem bind_eq_ok {x : Outcome α} {f : α → Outcome β} {b : β} :
    (x >>= f) = .ok b ↔ ∃ a, x = .ok a ∧ f a = .ok b := by
  cases x <;> simp

theorem map_eq_ok {ε : Type} {x : Except ε α} {f : α → β} {b : β} :
    x.map f = .ok b ↔ ∃ a, x = .ok a ∧ f a = b := by
  cases x <;> simp [Except.map]

end Outcomes

variable {V : Type} [Operand V]

/-- The stack that code leaves, the programs it refers to included. -/
def execute (scopes : List (Resolver V)) (code : List (Instruction V)) (stack : Stack V) :
    Outcome (Stack V) :=
  match code with
  | [] => .ok stack
  | i :: code =>
    match _effect : i.effect scopes stack with
    | .error e => .error e
    | .ok (.goOn stack) => execute scopes code stack
    | .ok (.splice p deeper) => execute deeper p.code stack >>= execute scopes code
termination_by stepCount scopes code
decreasing_by
  · exact stepCount_cons_lt scopes i code
  · have := stepCount_splice_lt code _effect
    omega
  · exact stepCount_cons_lt scopes i code

@[simp] theorem execute_nil (scopes : List (Resolver V)) (stack : Stack V) :
    execute scopes [] stack = .ok stack := by
  rw [execute]

theorem execute_cons_error {scopes : List (Resolver V)} {i : Instruction V} {stack : Stack V}
    {e : ResolveError} (h : i.effect scopes stack = .error e) (code : List (Instruction V)) :
    execute scopes (i :: code) stack = .error e := by
  rw [execute]
  split <;> simp_all

theorem execute_cons_goOn {scopes : List (Resolver V)} {i : Instruction V}
    {stack stack' : Stack V} (h : i.effect scopes stack = .ok (.goOn stack'))
    (code : List (Instruction V)) :
    execute scopes (i :: code) stack = execute scopes code stack' := by
  rw [execute]
  split <;> simp_all

theorem execute_cons_splice {scopes deeper : List (Resolver V)} {i : Instruction V}
    {stack : Stack V} {p : Program V} (h : i.effect scopes stack = .ok (.splice p deeper))
    (code : List (Instruction V)) :
    execute scopes (i :: code) stack = execute deeper p.code stack >>= execute scopes code := by
  rw [execute]
  split <;> simp_all

theorem execute_append (scopes : List (Resolver V)) (first second : List (Instruction V))
    (stack : Stack V) :
    execute scopes (first ++ second) stack =
      execute scopes first stack >>= execute scopes second := by
  induction first generalizing stack with
  | nil => simp only [List.nil_append, execute_nil]; rfl
  | cons i first ih =>
    rw [List.cons_append]
    cases h : i.effect scopes stack with
    | error e => rw [execute_cons_error h, execute_cons_error h]; rfl
    | ok effect =>
      cases effect with
      | goOn stack' => rw [execute_cons_goOn h, execute_cons_goOn h, ih]
      | splice p deeper =>
        rw [execute_cons_splice h, execute_cons_splice h]
        cases execute deeper p.code stack with
        | error e => rfl
        | ok stack' => exact ih stack'

theorem execute_cons (scopes : List (Resolver V)) (i : Instruction V) (code : List (Instruction V))
    (stack : Stack V) :
    execute scopes (i :: code) stack = execute scopes [i] stack >>= execute scopes code :=
  execute_append scopes [i] code stack

theorem execute_operation {scopes : List (Resolver V)} {i : Instruction V} {stack : Stack V}
    {outcome : Outcome (Stack V)} (h : i.effect scopes stack = outcome.map .goOn) :
    execute scopes [i] stack = outcome := by
  cases outcome with
  | error e => exact execute_cons_error h _
  | ok stack' => rw [execute_cons_goOn h, execute_nil]

theorem effect_comment (scopes : List (Resolver V)) (label : String) (stack : Stack V) :
    Instruction.effect scopes (.comment label) stack =
      ((popOperand label 1 stack).map fun p => .value (Operand.annotate p.1 label) :: p.2).map
        .goOn := by
  simp only [Instruction.effect]
  cases popOperand label 1 stack <;> rfl

theorem execute_reference (scope : Resolver V) (deeper : List (Resolver V)) (r : Reference)
    (stack : Stack V) :
    execute (scope :: deeper) [.reference r] stack =
      match scope r with
      | .error e => .error e
      | .ok (.value v) => .ok (.value v :: stack)
      | .ok (.splice p) => execute deeper p.code stack := by
  cases hr : scope r with
  | error e =>
    exact execute_cons_error (by simp only [Instruction.effect, Reference.effect, hr]) _
  | ok m =>
    cases m with
    | value v =>
      have heffect : Instruction.effect (scope :: deeper) (.reference r) stack =
          .ok (.goOn (.value v :: stack)) := by
        simp only [Instruction.effect, Reference.effect, hr]
      rw [execute_cons_goOn heffect, execute_nil]
    | splice p =>
      have heffect : Instruction.effect (scope :: deeper) (.reference r) stack =
          .ok (.splice p deeper) := by
        simp only [Instruction.effect, Reference.effect, hr]
      rw [execute_cons_splice heffect]
      change execute deeper p.code stack >>= execute (scope :: deeper) [] =
        execute deeper p.code stack
      cases execute deeper p.code stack with
      | error e => rfl
      | ok stack' => exact execute_nil _ _

theorem execute_singleton_congr {scopes scopes' : List (Resolver V)} {i j : Instruction V}
    {stack : Stack V} (same : i.effect scopes stack = j.effect scopes' stack) :
    execute scopes [i] stack = execute scopes' [j] stack := by
  cases h : i.effect scopes stack with
  | error e => rw [execute_cons_error h, execute_cons_error (same ▸ h)]
  | ok effect =>
    cases effect with
    | goOn stack' =>
      rw [execute_cons_goOn h, execute_cons_goOn (same ▸ h), execute_nil, execute_nil]
    | splice p deeper =>
      rw [execute_cons_splice h, execute_cons_splice (same ▸ h)]
      exact bind_congr fun stack' => by rw [execute_nil, execute_nil]

/-- Only references depend on the resolvers. -/
theorem execute_congr {scopes scopes' : List (Resolver V)} {code : List (Instruction V)}
    (same : ∀ r, .reference r ∈ code → ∀ stack,
      execute scopes [.reference r] stack = execute scopes' [.reference r] stack)
    (stack : Stack V) : execute scopes code stack = execute scopes' code stack := by
  induction code generalizing stack with
  | nil => simp only [execute_nil]
  | cons i code ih =>
    have ih := ih fun r hr => same r (by simp [hr])
    have hi : execute scopes [i] stack = execute scopes' [i] stack := by
      cases i with
      | reference r => exact same r (by simp) stack
      | _ => exact execute_singleton_congr rfl
    rw [← List.singleton_append, execute_append, execute_append, hi]
    exact bind_congr ih

/-- A step of the machine, by what is left of the running frame. -/
inductive Machine.Steps : Machine V → Machine V → Prop
  | leave {scopes : List (Resolver V)} {frames : List (Frame V)} {stack : Stack V} :
    Steps ⟨⟨[], scopes⟩ :: frames, stack⟩ ⟨frames, stack⟩
  | goOn {i : Instruction V} {code : List (Instruction V)} {scopes : List (Resolver V)}
    {frames : List (Frame V)} {stack stack' : Stack V}
    (effect : i.effect scopes stack = .ok (.goOn stack')) :
    Steps ⟨⟨i :: code, scopes⟩ :: frames, stack⟩ ⟨⟨code, scopes⟩ :: frames, stack'⟩
  | splice {i : Instruction V} {code : List (Instruction V)} {scopes deeper : List (Resolver V)}
    {frames : List (Frame V)} {stack : Stack V} {p : Program V}
    (effect : i.effect scopes stack = .ok (.splice p deeper)) :
    Steps ⟨⟨i :: code, scopes⟩ :: frames, stack⟩
      ⟨⟨p.code, deeper⟩ :: (Frame.mk code scopes).below frames, stack⟩

theorem Machine.steps_iff {m m' : Machine V} : m.Steps m' ↔ m.step? = .ok (some m') := by
  constructor
  · rintro (_ | effect | effect)
    · rfl
    · simp only [step?, effect]
    · simp only [step?, effect]
  · intro h
    obtain ⟨frames, stack⟩ := m
    match frames with
    | [] => cases h
    | ⟨[], scopes⟩ :: frames =>
      cases h
      exact .leave
    | ⟨i :: code, scopes⟩ :: frames =>
      simp only [step?] at h
      split at h
      · cases h
      · rename_i effect
        cases h
        exact .goOn effect
      · rename_i effect
        cases h
        exact .splice effect

def executeFrames : List (Frame V) → Stack V → Outcome (Stack V)
  | [], stack => .ok stack
  | f :: frames, stack => execute f.scopes f.code stack >>= executeFrames frames

theorem executeFrames_below (f : Frame V) (frames : List (Frame V)) (stack : Stack V) :
    executeFrames (f.below frames) stack = executeFrames (f :: frames) stack := by
  obtain ⟨code, scopes⟩ := f
  cases code with
  | nil => simp only [Frame.below, List.isEmpty_nil, if_true, executeFrames, execute_nil]; rfl
  | cons i code => rfl

theorem executeFrames_of_step? {m m' : Machine V} (h : m.step? = .ok (some m')) :
    executeFrames m'.frames m'.stack = executeFrames m.frames m.stack := by
  cases Machine.steps_iff.2 h with
  | leave => simp only [executeFrames, execute_nil, ok_bind]
  | goOn effect => simp only [executeFrames, execute_cons_goOn effect]
  | @splice i code scopes deeper frames stack p effect =>
    simp only [executeFrames, execute_cons_splice effect]
    cases execute deeper p.code stack with
    | error e => rfl
    | ok stack' => exact executeFrames_below ⟨code, scopes⟩ frames stack'

theorem executeFrames_of_step?_error {m : Machine V} {e : ResolveError}
    (h : m.step? = .error e) : executeFrames m.frames m.stack = .error e := by
  obtain ⟨frames, stack⟩ := m
  unfold Machine.step? at h
  split at h
  · cases h
  · cases h
  · rename_i i code scopes frames' hf
    simp only at hf
    subst hf
    split at h
    · rename_i e' heffect
      simp only [Except.error.injEq] at h
      subst h
      simp only [executeFrames, execute_cons_error heffect]
      rfl
    · cases h
    · cases h

theorem frames_eq_nil_of_step? {m : Machine V} (h : m.step? = .ok none) : m.frames = [] := by
  obtain ⟨frames, stack⟩ := m
  unfold Machine.step? at h
  split at h
  · assumption
  · cases h
  · split at h <;> cases h

/-- The machine computes what its frames come to. -/
theorem run_eq_executeFrames (m : Machine V) : m.run = executeFrames m.frames m.stack := by
  fun_induction Machine.run m with
  | case1 m e h => exact (executeFrames_of_step?_error h).symm
  | case2 m h => rw [frames_eq_nil_of_step? h]; rfl
  | case3 m m' h ih => rw [ih, executeFrames_of_step? h]

theorem evaluate_eq_execute (scopes : List (Resolver V)) (p : Program V) :
    p.evaluate scopes = execute scopes p.code [] >>= Stack.result := by
  have hrun : (Machine.mk [⟨p.code, scopes⟩] []).run = execute scopes p.code [] := by
    rw [run_eq_executeFrames]
    simp only [executeFrames]
    cases execute scopes p.code [] <;> rfl
  rw [Program.evaluate, hrun]
  cases execute scopes p.code [] <;> rfl

theorem execute_eq_of_evaluate {scopes : List (Resolver V)} {p : Program V} {v : V}
    (h : p.evaluate scopes = .ok v) : execute scopes p.code [] = .ok [.value v] := by
  rw [evaluate_eq_execute] at h
  cases hs : execute scopes p.code [] with
  | error e => simp [hs, bind, Except.bind] at h
  | ok stack =>
    simp only [hs, bind, Except.bind] at h
    unfold Stack.result at h
    split at h
    · simp_all
    · cases h

omit [Operand V] in
theorem popOperand_eq_ok {name : String} {position : Nat} {stack rest : Stack V} {v : V} :
    popOperand name position stack = .ok (v, rest) ↔ stack = .value v :: rest := by
  unfold popOperand
  split <;> simp_all [eq_comm]

omit [Operand V] in
theorem popOperand_append {name : String} {position : Nat} {stack stack' : Stack V} {v : V}
    (h : popOperand name position stack = .ok (v, stack')) (base : Stack V) :
    popOperand name position (stack ++ base) = .ok (v, stack' ++ base) := by
  rw [popOperand_eq_ok.1 h]
  rfl

omit [Operand V] in
theorem popArguments_append {name : String} {position count : Nat} {later arguments : List V}
    {stack stack' : Stack V}
    (h : popArguments name position count later stack = .ok (arguments, stack')) (base : Stack V) :
    popArguments name position count later (stack ++ base) = .ok (arguments, stack' ++ base) := by
  induction count generalizing position later stack with
  | zero =>
    simp only [popArguments, Except.ok.injEq, Prod.mk.injEq] at h ⊢
    simp [h.1, h.2]
  | succ count ih =>
    rw [popArguments] at h ⊢
    cases hpop : popOperand name position stack with
    | error e => simp [hpop] at h
    | ok popped =>
      simp only [hpop] at h
      rw [popOperand_append hpop base]
      exact ih h

omit [Operand V] in
theorem invoke_append {name : String} {c : Operation V} {stack stack' : Stack V}
    (h : c.invoke name stack = .ok stack') (base : Stack V) :
    c.invoke name (stack ++ base) = .ok (stack' ++ base) := by
  cases c with
  | nullary f =>
    obtain ⟨v, hv, hpush⟩ := bind_eq_ok.1 h
    cases hpush
    simp only [Operation.invoke, hv, ok_bind]
    rfl
  | unary f =>
    obtain ⟨⟨a, s₁⟩, ha, hrest⟩ := bind_eq_ok.1 h
    obtain ⟨v, hv, hpush⟩ := bind_eq_ok.1 hrest
    cases hpush
    simp only [Operation.invoke, popOperand_append ha, ok_bind, hv]
    rfl
  | binary f =>
    obtain ⟨⟨b, s₁⟩, hb, hrest⟩ := bind_eq_ok.1 h
    obtain ⟨⟨a, s₂⟩, ha, hrest⟩ := bind_eq_ok.1 hrest
    obtain ⟨v, hv, hpush⟩ := bind_eq_ok.1 hrest
    cases hpush
    simp only [Operation.invoke, popOperand_append hb, ok_bind, popOperand_append ha, hv]
    rfl
  | ternary f =>
    obtain ⟨⟨c, s₁⟩, hc, hrest⟩ := bind_eq_ok.1 h
    obtain ⟨⟨b, s₂⟩, hb, hrest⟩ := bind_eq_ok.1 hrest
    obtain ⟨⟨a, s₃⟩, ha, hrest⟩ := bind_eq_ok.1 hrest
    obtain ⟨v, hv, hpush⟩ := bind_eq_ok.1 hrest
    cases hpush
    simp only [Operation.invoke, popOperand_append hc, ok_bind, popOperand_append hb,
      popOperand_append ha, hv]
    rfl
  | variadic f =>
    unfold Operation.invoke at h
    simp only at h
    split at h
    · obtain ⟨⟨arguments, s₁⟩, hs, hrest⟩ := bind_eq_ok.1 h
      obtain ⟨v, hv, hpush⟩ := bind_eq_ok.1 hrest
      cases hpush
      simp only [List.cons_append, Operation.invoke, popArguments_append hs, ok_bind, hv]
      rfl
    · cases h

theorem effect_append {scopes : List (Resolver V)} {i : Instruction V} {stack stack' : Stack V}
    (h : i.effect scopes stack = .ok (.goOn stack')) (base : Stack V) :
    i.effect scopes (stack ++ base) = .ok (.goOn (stack' ++ base)) := by
  have invoked : ∀ {name : String} {c : Operation V},
      (c.invoke name stack).map Effect.goOn = .ok (.goOn stack') →
      (c.invoke name (stack ++ base)).map Effect.goOn = .ok (.goOn (stack' ++ base)) := by
    intro name c hc
    cases hs : c.invoke name stack with
    | error e => simp [hs, Except.map] at hc
    | ok s =>
      simp only [hs, Except.map, Except.ok.injEq, Effect.goOn.injEq] at hc
      subst hc
      rw [invoke_append hs base]
      rfl
  cases i with
  | term v =>
    cases h
    rfl
  | reference r =>
    cases scopes with
    | nil => cases h
    | cons scope deeper =>
      simp only [Instruction.effect, Reference.effect] at h ⊢
      split at h <;> cases h
      rfl
  | operator op => exact invoked h
  | function f => exact invoked h
  | arity n =>
    cases h
    rfl
  | comment label =>
    obtain ⟨⟨v, s₁⟩, hv, hpush⟩ := bind_eq_ok.1 h
    cases hpush
    simp only [Instruction.effect, popOperand_append hv, ok_bind]
    rfl

theorem effect_splice_append {scopes deeper : List (Resolver V)} {i : Instruction V}
    {stack : Stack V} {p : Program V} (h : i.effect scopes stack = .ok (.splice p deeper))
    (base : Stack V) : i.effect scopes (stack ++ base) = .ok (.splice p deeper) := by
  obtain ⟨r, scope, rfl, rfl, hr⟩ := Instruction.eq_reference_of_effect_splice h
  simp only [Instruction.effect, Reference.effect, hr]

/-- Code that succeeds never reaches below its own part of the stack. -/
theorem execute_append_stack {scopes : List (Resolver V)} {code : List (Instruction V)}
    {stack stack' : Stack V} (h : execute scopes code stack = .ok stack') (base : Stack V) :
    execute scopes code (stack ++ base) = .ok (stack' ++ base) := by
  fun_induction execute scopes code stack generalizing stack' with
  | case1 scopes stack =>
    cases h
    exact execute_nil _ _
  | case2 scopes stack i code e heffect => cases h
  | case3 scopes stack i code s₁ heffect ih =>
    rw [execute_cons_goOn (effect_append heffect base)]
    exact ih h
  | case4 scopes stack i code p deeper heffect ihp ihcode =>
    obtain ⟨s₁, hs, hrest⟩ := bind_eq_ok.1 h
    rw [execute_cons_splice (effect_splice_append heffect base), ihp hs, ok_bind]
    exact ihcode s₁ hrest

end FormulaEngine
