import FormulaEngine.Program.Basic

/-!
# Running programs

A stack machine. A reference that stands for a program is not run apart: the instructions of that
program are run in its place, on the same stack. The code that is left to run is kept in frames,
and a frame that has nothing left is given up before another one is put on top of it.

Every frame carries the resolvers it may use: the first one resolves its own references, the
others are left to the programs that are spliced in. Where none is left the references are nested
deeper than there are keys to refer to, and the run is given up. The length of this list bounds
the nesting, so every run ends.
-/
namespace FormulaEngine

variable {V : Type}

/-- What is on the stack: operands, and the argument counts of variadic calls. -/
inductive StackItem (V : Type) where
  | value (v : V)
  | arity (n : Nat)

abbrev Stack (V : Type) := List (StackItem V)

/-- Takes the operand with number `position`, counted from the last one, off the stack. -/
def popOperand (name : String) (position : Nat) : Stack V → Outcome (V × Stack V)
  | .value v :: stack => .ok (v, stack)
  | _ => .error (.missingOperand name position)

/-- Takes `count` operands off the stack, the one with number `position` first, and puts each of
them before the ones it was given after. -/
def popArguments (name : String) (position : Nat) :
    (count : Nat) → (later : List V) → Stack V → Outcome (List V × Stack V)
  | 0, later, stack => .ok (later, stack)
  | count + 1, later, stack =>
    match popOperand name position stack with
    | .error e => .error e
    | .ok (v, stack) => popArguments name (position + 1) count (v :: later) stack

def Operation.invoke (name : String) (c : Operation V) (stack : Stack V) : Outcome (Stack V) :=
  match c with
  | .nullary f => do
    return .value (← f) :: stack
  | .unary f => do
    let (a, stack) ← popOperand name 1 stack
    return .value (← f a) :: stack
  | .binary f => do
    let (b, stack) ← popOperand name 1 stack
    let (a, stack) ← popOperand name 2 stack
    return .value (← f a b) :: stack
  | .ternary f => do
    let (c, stack) ← popOperand name 1 stack
    let (b, stack) ← popOperand name 2 stack
    let (a, stack) ← popOperand name 3 stack
    return .value (← f a b c) :: stack
  | .variadic f =>
    match stack with
    | .arity n :: stack => do
      let (arguments, stack) ← popArguments name 1 n [] stack
      return .value (← f arguments) :: stack
    | _ => .error (.missingArity name)

/-- The code of one program that is left to run, and the resolvers for its references. -/
structure Frame (V : Type) where
  code : List (Instruction V)
  scopes : List (Resolver V)

structure Machine (V : Type) where
  frames : List (Frame V)
  stack : Stack V

/-- What an instruction asks for: to go on with a stack, or to run a program first, on the stack
as it is and with the resolvers given for its references. -/
inductive Effect (V : Type) where
  | goOn (stack : Stack V)
  | splice (p : Program V) (scopes : List (Resolver V))

def Reference.effect (scopes : List (Resolver V)) (r : Reference) (stack : Stack V) :
    Outcome (Effect V) :=
  match scopes with
  | [] => .error .circularReference
  | scope :: deeper =>
    match scope r with
    | .error e => .error e
    | .ok (.value v) => .ok (.goOn (.value v :: stack))
    | .ok (.splice p) => .ok (.splice p deeper)

def Instruction.effect [Operand V] (scopes : List (Resolver V)) (i : Instruction V)
    (stack : Stack V) : Outcome (Effect V) :=
  match i with
  | .term v => .ok (.goOn (.value v :: stack))
  | .reference r => r.effect scopes stack
  | .arity n => .ok (.goOn (.arity n :: stack))
  | .operator op => (op.operation.invoke op.symbol stack).map .goOn
  | .function f => (f.operation.invoke f.name stack).map .goOn
  | .comment label => do
    let (v, stack) ← popOperand label 1 stack
    return .goOn (.value (Operand.annotate v label) :: stack)

/-- Puts what is left of a frame below a new one, unless nothing is left. -/
def Frame.below (f : Frame V) (frames : List (Frame V)) : List (Frame V) :=
  if f.code.isEmpty then frames else f :: frames

namespace Machine

/-- One instruction, or the end of a frame; nothing once all frames are done. -/
def step? [Operand V] (m : Machine V) : Outcome (Option (Machine V)) :=
  match m.frames with
  | [] => .ok none
  | ⟨[], _⟩ :: frames => .ok (some ⟨frames, m.stack⟩)
  | ⟨i :: code, scopes⟩ :: frames =>
    match i.effect scopes m.stack with
    | .error e => .error e
    | .ok (.goOn stack) => .ok (some ⟨⟨code, scopes⟩ :: frames, stack⟩)
    | .ok (.splice p deeper) =>
      .ok (some ⟨⟨p.code, deeper⟩ :: (Frame.mk code scopes).below frames, m.stack⟩)

end Machine

/-- The steps that a frame with this code takes, those of all programs spliced in included. -/
def stepCount : List (Resolver V) → List (Instruction V) → Nat
  | [], code => code.length + 1
  | scope :: deeper, code =>
    1 + code.foldr (fun i total =>
      total + match i with
      | .reference r =>
        match scope r with
        | .ok (.splice p) => 1 + stepCount deeper p.code
        | _ => 1
      | _ => 1) 0

def Machine.work (m : Machine V) : Nat :=
  m.frames.foldr (fun f total => stepCount f.scopes f.code + total) 0

theorem stepCount_nil (scopes : List (Resolver V)) : stepCount scopes [] = 1 := by
  cases scopes <;> simp [stepCount]

theorem stepCount_cons_lt (scopes : List (Resolver V)) (i : Instruction V)
    (code : List (Instruction V)) : stepCount scopes code < stepCount scopes (i :: code) := by
  cases scopes with
  | nil => simp [stepCount]
  | cons scope deeper =>
    simp only [stepCount, List.foldr_cons]
    split
    · split <;> omega
    · omega

theorem Instruction.eq_reference_of_effect_splice [Operand V] {scopes deeper : List (Resolver V)}
    {i : Instruction V} {stack : Stack V} {p : Program V}
    (h : i.effect scopes stack = .ok (.splice p deeper)) :
    ∃ r scope, i = .reference r ∧ scopes = scope :: deeper ∧ scope r = .ok (.splice p) := by
  cases i with
  | reference r =>
    cases scopes with
    | nil => simp [effect, Reference.effect] at h
    | cons scope rest =>
      simp only [effect, Reference.effect] at h
      split at h <;> simp_all
  | operator op =>
    cases hc : op.operation.invoke op.symbol stack <;> simp [effect, hc, Except.map] at h
  | function f =>
    cases hc : f.operation.invoke f.name stack <;> simp [effect, hc, Except.map] at h
  | comment label =>
    cases hc : popOperand label 1 stack <;>
      simp [effect, hc, bind, Except.bind, pure, Except.pure] at h
  | _ => simp [effect] at h

theorem stepCount_splice_lt [Operand V] {scopes deeper : List (Resolver V)} {i : Instruction V}
    {stack : Stack V} {p : Program V} (code : List (Instruction V))
    (h : i.effect scopes stack = .ok (.splice p deeper)) :
    stepCount deeper p.code + stepCount scopes code < stepCount scopes (i :: code) := by
  obtain ⟨r, scope, rfl, rfl, hr⟩ := Instruction.eq_reference_of_effect_splice h
  simp only [stepCount, List.foldr_cons, hr]
  omega

namespace Machine

theorem work_lt_of_step? [Operand V] {m m' : Machine V} (h : m.step? = .ok (some m')) :
    m'.work < m.work := by
  obtain ⟨frames, stack⟩ := m
  unfold step? at h
  split at h
  · cases h
  · rename_i scopes frames' hf
    simp only [Except.ok.injEq, Option.some.injEq] at h hf
    subst h hf
    simp [work, stepCount_nil]
  · rename_i i code scopes frames' hf
    subst hf
    have := stepCount_cons_lt scopes i code
    split at h
    · cases h
    · simp only [Except.ok.injEq, Option.some.injEq] at h
      subst h
      simp only [work, List.foldr_cons]
      omega
    · rename_i p deeper hl
      simp only [Except.ok.injEq, Option.some.injEq] at h
      subst h
      have := stepCount_splice_lt code hl
      cases code with
      | nil =>
        simp only [stepCount_nil] at *
        simp only [work, Frame.below, List.isEmpty_nil, if_true, List.foldr_cons]
        omega
      | cons i code =>
        simp only [work, Frame.below, List.isEmpty_cons, List.foldr_cons]
        simp only [Bool.false_eq_true, if_false, List.foldr_cons]
        omega

def run [Operand V] (m : Machine V) : Outcome (Stack V) :=
  match _stepped : m.step? with
  | .error e => .error e
  | .ok none => .ok m.stack
  | .ok (some m') => m'.run
termination_by m.work
decreasing_by exact work_lt_of_step? _stepped

end Machine

/-- A finished run leaves a single value. -/
def Stack.result : Stack V → Outcome V
  | [.value v] => .ok v
  | stack => .error (.invalidProgram stack.length)

def Program.evaluate [Operand V] (scopes : List (Resolver V)) (p : Program V) : Outcome V :=
  match (Machine.mk [⟨p.code, scopes⟩] []).run with
  | .error e => .error e
  | .ok stack => stack.result

end FormulaEngine
