import FormulaEngine.Proofs.Calculation
import Mathlib.Data.List.Basic
import Mathlib.Logic.Relation

/-!
# Invariants

The states that the machine comes to. What the operands of a program have in common, and what every
operation and comment in it makes of such operands as well, is found in every operand on the stack
in all of these states, whatever programs are spliced in.
-/
namespace FormulaEngine

variable {V : Type}

section Operands

variable {name : String} {position count : Nat} {later arguments : List V} {v : V}
  {stack rest : Stack V}

theorem exists_arguments_of_popArguments
    (h : popArguments name position count later stack = .ok (arguments, rest)) :
    ∃ vs, vs.length = count ∧ arguments = vs ++ later ∧
      stack = vs.reverse.map .value ++ rest := by
  induction count generalizing position later stack with
  | zero =>
    cases h
    exact ⟨[], rfl, rfl, rfl⟩
  | succ count ih =>
    rw [popArguments] at h
    split at h
    · cases h
    · rename_i v below hpop
      obtain rfl := popOperand_eq_ok.1 hpop
      obtain ⟨vs, hlength, rfl, rfl⟩ := ih h
      exact ⟨vs ++ [v], by simp [hlength], by simp, by simp⟩

/-- An operation that succeeds has found its operands at the top of the stack, perhaps below their
number, and leaves its result in their place. -/
theorem Operation.exists_operands {c : Operation V} (h : c.invoke name stack = .ok rest) :
    ∃ vs v below, c.Takes vs.length ∧ c.apply vs = .ok v ∧ rest = .value v :: below ∧
      vs.reverse.map .value ++ below <:+ stack := by
  cases c with
  | nullary f =>
    obtain ⟨v, hv, hrest⟩ := bind_eq_ok.1 h
    cases hrest
    exact ⟨[], v, stack, by rintro _ ⟨⟩; rfl, hv, rfl, List.suffix_refl _⟩
  | unary f =>
    obtain ⟨⟨a, below⟩, ha, happly⟩ := bind_eq_ok.1 h
    obtain ⟨v, hv, hrest⟩ := bind_eq_ok.1 happly
    cases hrest
    rw [popOperand_eq_ok.1 ha]
    exact ⟨[a], v, below, by rintro _ ⟨⟩; rfl, hv, rfl, List.suffix_refl _⟩
  | binary f =>
    obtain ⟨⟨b, stack'⟩, hb, hmore⟩ := bind_eq_ok.1 h
    obtain ⟨⟨a, below⟩, ha, happly⟩ := bind_eq_ok.1 hmore
    obtain ⟨v, hv, hrest⟩ := bind_eq_ok.1 happly
    cases hrest
    rw [popOperand_eq_ok.1 hb, popOperand_eq_ok.1 ha]
    exact ⟨[a, b], v, below, by rintro _ ⟨⟩; rfl, hv, rfl, List.suffix_refl _⟩
  | ternary f =>
    obtain ⟨⟨c, stack'⟩, hc, hmore⟩ := bind_eq_ok.1 h
    obtain ⟨⟨b, stack''⟩, hb, hmore⟩ := bind_eq_ok.1 hmore
    obtain ⟨⟨a, below⟩, ha, happly⟩ := bind_eq_ok.1 hmore
    obtain ⟨v, hv, hrest⟩ := bind_eq_ok.1 happly
    cases hrest
    rw [popOperand_eq_ok.1 hc, popOperand_eq_ok.1 hb, popOperand_eq_ok.1 ha]
    exact ⟨[a, b, c], v, below, by rintro _ ⟨⟩; rfl, hv, rfl, List.suffix_refl _⟩
  | variadic f =>
    match stack, h with
    | .arity n :: stack, h =>
      obtain ⟨⟨arguments, below⟩, harguments, happly⟩ := bind_eq_ok.1 h
      obtain ⟨v, hv, hrest⟩ := bind_eq_ok.1 happly
      cases hrest
      obtain ⟨vs, -, hvs, rfl⟩ := exists_arguments_of_popArguments harguments
      obtain rfl : arguments = vs := by rw [hvs, List.append_nil]
      exact ⟨arguments, v, below, nofun, hv, rfl, List.suffix_cons _ _⟩

end Operands

section Reaching

variable [Operand V] {m m' : Machine V} {stack : Stack V} {scopes : List (Resolver V)}
  {p : Program V} {v : V}

def Machine.Reaches : Machine V → Machine V → Prop :=
  Relation.ReflTransGen fun m m' => m.step? = .ok (some m')

def Program.start (p : Program V) (scopes : List (Resolver V)) : Machine V :=
  ⟨[⟨p.code, scopes⟩], []⟩

theorem Machine.reaches_of_run (h : m.run = .ok stack) : m.Reaches ⟨[], stack⟩ := by
  fun_induction Machine.run m with
  | case1 m e _ => cases h
  | case2 m hstep =>
    cases h
    rw [← frames_eq_nil_of_step? hstep]
    exact .refl
  | case3 m m' hstep ih => exact .head hstep (ih h)

theorem Program.reaches_of_evaluate (h : p.evaluate scopes = .ok v) :
    (p.start scopes).Reaches ⟨[], [.value v]⟩ := by
  refine Machine.reaches_of_run ?_
  rw [run_eq_executeFrames, start, executeFrames, execute_eq_of_evaluate h]
  rfl

end Reaching

section Keeping

variable (P : V → Prop)

/-- The operation makes only results with the property of operands that have it. -/
def Operation.Keeps (c : Operation V) : Prop :=
  ∀ vs, c.Takes vs.length → (∀ v ∈ vs, P v) → ∀ v, c.apply vs = .ok v → P v

def Stack.All (stack : Stack V) : Prop := ∀ v, .value v ∈ stack → P v

variable [Operand V]

def Instruction.Keeps : Instruction V → Prop
  | .term v => P v
  | .reference _ => True
  | .operator op => op.operation.Keeps P
  | .function f => f.operation.Keeps P
  | .arity _ => True
  | .comment label => ∀ v, P v → P (Operand.annotate v label)

def Program.Keeps (p : Program V) : Prop := ∀ i ∈ p.code, i.Keeps P

/-- References stand for values with the property and for programs that keep it. -/
structure Resolver.Keeps (scope : Resolver V) : Prop where
  value {r : Reference} {v : V} (resolved : scope r = .ok (.value v)) : P v
  splice {r : Reference} {p : Program V} (resolved : scope r = .ok (.splice p)) : p.Keeps P

structure Frame.Keeps (f : Frame V) : Prop where
  code : ∀ i ∈ f.code, i.Keeps P
  scopes : ∀ scope ∈ f.scopes, Resolver.Keeps P scope

structure Machine.Keeps (m : Machine V) : Prop where
  frames : ∀ f ∈ m.frames, f.Keeps P
  stack : Stack.All P m.stack

variable {P} {name : String} {stack stack' : Stack V} {scopes deeper : List (Resolver V)}
  {i : Instruction V} {m m' : Machine V} {p : Program V} {v : V}

omit [Operand V] in
theorem Operation.Keeps.unary {f : V → Outcome V} (h : ∀ a, P a → ∀ v, f a = .ok v → P v) :
    (Operation.unary f).Keeps P := by
  intro vs takes each v happly
  obtain ⟨a, rfl⟩ := List.length_eq_one_iff.1 (takes 1 rfl)
  exact h a (each a (by simp)) v happly

omit [Operand V] in
theorem Operation.Keeps.binary {f : V → V → Outcome V}
    (h : ∀ a b, P a → P b → ∀ v, f a b = .ok v → P v) : (Operation.binary f).Keeps P := by
  intro vs takes each v happly
  obtain ⟨a, b, rfl⟩ := List.length_eq_two.1 (takes 2 rfl)
  exact h a b (each a (by simp)) (each b (by simp)) v happly

omit [Operand V] in
theorem Operation.Keeps.ternary {f : V → V → V → Outcome V}
    (h : ∀ a b c, P a → P b → P c → ∀ v, f a b c = .ok v → P v) :
    (Operation.ternary f).Keeps P := by
  intro vs takes each v happly
  obtain ⟨a, b, c, rfl⟩ := List.length_eq_three.1 (takes 3 rfl)
  exact h a b c (each a (by simp)) (each b (by simp)) (each c (by simp)) v happly

omit [Operand V] in
theorem Operation.Keeps.variadic {f : List V → Outcome V}
    (h : ∀ vs, (∀ v ∈ vs, P v) → ∀ v, f vs = .ok v → P v) : (Operation.variadic f).Keeps P :=
  fun vs _ => h vs

omit [Operand V] in
theorem Stack.All.push (hv : P v) (h : Stack.All P stack) : Stack.All P (.value v :: stack) := by
  intro w hw
  rcases List.mem_cons.1 hw with hw | hw
  · cases hw
    exact hv
  · exact h w hw

omit [Operand V] in
theorem Stack.All.invoke {c : Operation V} (h : Stack.All P stack) (keeps : c.Keeps P)
    (invoked : c.invoke name stack = .ok stack') : Stack.All P stack' := by
  obtain ⟨vs, v, below, takes, hv, rfl, hsuffix⟩ := Operation.exists_operands invoked
  have hbelow : Stack.All P below := fun w hw => h w (hsuffix.subset (List.mem_append_right _ hw))
  have hvs : ∀ w ∈ vs, P w := fun w hw => h w (hsuffix.subset (by simp [hw]))
  exact hbelow.push (keeps vs takes hvs v hv)

theorem Stack.All.effect (h : Stack.All P stack) (keeps : i.Keeps P)
    (resolving : ∀ scope ∈ scopes, Resolver.Keeps P scope)
    (effect : i.effect scopes stack = .ok (.goOn stack')) : Stack.All P stack' := by
  cases i with
  | term v =>
    cases effect
    exact h.push keeps
  | reference r =>
    match scopes, effect with
    | scope :: deeper, effect =>
      simp only [Instruction.effect, Reference.effect] at effect
      split at effect
      · cases effect
      · rename_i v resolved
        cases effect
        exact h.push ((resolving scope List.mem_cons_self).value resolved)
      · cases effect
  | operator op =>
    obtain ⟨stack', invoked, hstack⟩ := map_eq_ok.1 effect
    cases hstack
    exact h.invoke keeps invoked
  | function f =>
    obtain ⟨stack', invoked, hstack⟩ := map_eq_ok.1 effect
    cases hstack
    exact h.invoke keeps invoked
  | arity n =>
    cases effect
    intro v hv
    rcases List.mem_cons.1 hv with hv | hv
    · cases hv
    · exact h v hv
  | comment label =>
    obtain ⟨⟨v, below⟩, hpop, hstack⟩ := bind_eq_ok.1 effect
    obtain rfl := popOperand_eq_ok.1 hpop
    cases hstack
    have hbelow : Stack.All P below := fun w hw => h w (List.mem_cons_of_mem _ hw)
    exact hbelow.push (keeps v (h v List.mem_cons_self))

theorem Frame.Keeps.below {f : Frame V} {frames : List (Frame V)} (h : f.Keeps P)
    (others : ∀ g ∈ frames, g.Keeps P) : ∀ g ∈ f.below frames, g.Keeps P := by
  unfold Frame.below
  split
  · exact others
  · exact List.forall_mem_cons.2 ⟨h, others⟩

theorem Machine.Keeps.step (h : m.Keeps P) (hstep : m.step? = .ok (some m')) : m'.Keeps P := by
  cases steps_iff.2 hstep with
  | leave => exact ⟨fun f hf => h.frames f (List.mem_cons_of_mem _ hf), h.stack⟩
  | goOn effect =>
    obtain ⟨hframe, hframes⟩ := List.forall_mem_cons.1 h.frames
    obtain ⟨hi, hcode⟩ := List.forall_mem_cons.1 hframe.code
    exact ⟨List.forall_mem_cons.2 ⟨⟨hcode, hframe.scopes⟩, hframes⟩,
      h.stack.effect hi hframe.scopes effect⟩
  | splice effect =>
    obtain ⟨hframe, hframes⟩ := List.forall_mem_cons.1 h.frames
    obtain ⟨_, hcode⟩ := List.forall_mem_cons.1 hframe.code
    obtain ⟨r, scope, _, rfl, resolved⟩ := Instruction.eq_reference_of_effect_splice effect
    obtain ⟨hscope, hdeeper⟩ := List.forall_mem_cons.1 hframe.scopes
    have hrest : Frame.Keeps P ⟨_, scope :: _⟩ := ⟨hcode, hframe.scopes⟩
    exact ⟨List.forall_mem_cons.2 ⟨⟨hscope.splice resolved, hdeeper⟩, hrest.below hframes⟩, h.stack⟩

theorem Machine.Keeps.reaches (h : m.Keeps P) (hreaches : m.Reaches m') : m'.Keeps P := by
  induction hreaches with
  | refl => exact h
  | tail _ hstep ih => exact ih.step hstep

/-- In all states that a program comes to, all operands on the stack have the property. -/
theorem Program.Keeps.all_of_reaches (h : p.Keeps P)
    (resolving : ∀ scope ∈ scopes, Resolver.Keeps P scope)
    (hreaches : (p.start scopes).Reaches m) : Stack.All P m.stack := by
  have hstart : (p.start scopes).Keeps P := ⟨List.forall_mem_singleton.2 ⟨h, resolving⟩, nofun⟩
  exact (hstart.reaches hreaches).stack

theorem Program.Keeps.of_evaluate (h : p.Keeps P)
    (resolving : ∀ scope ∈ scopes, Resolver.Keeps P scope)
    (evaluated : p.evaluate scopes = .ok v) : P v :=
  h.all_of_reaches resolving (reaches_of_evaluate evaluated) v List.mem_cons_self

end Keeping

end FormulaEngine
