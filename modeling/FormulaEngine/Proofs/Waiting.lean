import FormulaEngine.Proofs.Invariants
import FormulaEngine.Proofs.Splicing

/-!
# Waiting frames

What is left of a run is kept in frames, one for every program that was spliced in and is not done.
Read from the top frame down, it is the list of instructions that would be left if programs were put
into that list in place of the references to them. No frame waits with nothing left to run, so that
references that stand last are followed without any frame but the running one.
-/
namespace FormulaEngine

variable {V : Type}

/-- An instruction that is left to run, with the resolvers that it may use. -/
structure Task (V : Type) where
  instruction : Instruction V
  scopes : List (Resolver V)

def Frame.tasks (f : Frame V) : List (Task V) := f.code.map fun i => ⟨i, f.scopes⟩

/-- A run that keeps what is left of it in a single list. -/
structure Listing (V : Type) where
  tasks : List (Task V)
  stack : Stack V

namespace Listing

def next? (l : Listing V) : Option (Task V) := l.tasks.head?

/-- Takes up the first task; where it is a reference to a program, that program takes its place. -/
def step? [Operand V] (l : Listing V) : Outcome (Option (Listing V)) :=
  match l.tasks with
  | [] => .ok none
  | t :: tasks =>
    match t.instruction.effect t.scopes l.stack with
    | .error e => .error e
    | .ok (.goOn stack) => .ok (some ⟨tasks, stack⟩)
    | .ok (.splice p deeper) => .ok (some ⟨Frame.tasks ⟨p.code, deeper⟩ ++ tasks, l.stack⟩)

def finish [Operand V] (l : Listing V) : Outcome (Stack V) :=
  l.tasks.foldlM (fun stack t => execute t.scopes [t.instruction] stack) l.stack

end Listing

namespace Machine

def listing (m : Machine V) : Listing V := ⟨m.frames.flatMap Frame.tasks, m.stack⟩

/-- The task that the next step takes up; none where the running frame is done. -/
def next? (m : Machine V) : Option (Task V) := m.frames.head?.bind fun f => f.tasks.head?

end Machine

/-- Steps lead from one state to another one, and these are the tasks that they take up. -/
inductive TakesUp {S : Type} (step? : S → Outcome (Option S)) (next? : S → Option (Task V))
    (s : S) : List (Task V) → S → Prop where
  | nothing : TakesUp step? next? s [] s
  | more {taken : List (Task V)} {s' s'' : S} (before : TakesUp step? next? s taken s')
    (step : step? s' = .ok (some s'')) : TakesUp step? next? s (taken ++ (next? s').toList) s''

/-- Programs are referred to in last position only, also in the programs that are referred to. -/
def RefersLast : List (Resolver V) → List (Instruction V) → Prop
  | [], _ => True
  | scope :: deeper, code => ∀ before r after p, code = before ++ .reference r :: after →
    scope r = .ok (.splice p) → after = [] ∧ RefersLast deeper p.code

section Frames

variable {f : Frame V} {frames : List (Frame V)} {scopes deeper : List (Resolver V)}
  {i : Instruction V} {code : List (Instruction V)} {p : Program V} {stack : Stack V}

theorem flatMap_tasks_below (f : Frame V) (frames : List (Frame V)) :
    (f.below frames).flatMap Frame.tasks = f.tasks ++ frames.flatMap Frame.tasks := by
  obtain ⟨code, scopes⟩ := f
  cases code <;> rfl

theorem Frame.forall_mem_below (h : ∀ g ∈ frames, g.code ≠ []) :
    ∀ g ∈ f.below frames, g.code ≠ [] := by
  obtain ⟨code, scopes⟩ := f
  cases code with
  | nil => exact h
  | cons i code => exact List.forall_mem_cons.2 ⟨List.cons_ne_nil i code, h⟩

theorem RefersLast.tail (h : RefersLast scopes (i :: code)) : RefersLast scopes code := by
  cases scopes with
  | nil => trivial
  | cons scope deeper =>
    rintro before r after p rfl resolved
    exact h (i :: before) r after p rfl resolved

theorem RefersLast.splice [Operand V] (h : RefersLast scopes (i :: code))
    (effect : i.effect scopes stack = .ok (.splice p deeper)) :
    code = [] ∧ RefersLast deeper p.code := by
  obtain ⟨r, scope, rfl, rfl, resolved⟩ := Instruction.eq_reference_of_effect_splice effect
  exact h [] r code p rfl resolved

end Frames

section Runs

variable [Operand V] {m m' : Machine V} {scopes : List (Resolver V)} {p : Program V}
  {taken : List (Task V)}

/-- A step of the machine either gives up a frame that is done, or is one of the list. -/
theorem Machine.listing_step (h : m.step? = .ok (some m')) :
    m.next? = none ∧ m'.listing = m.listing ∨
      m.next? = m.listing.next? ∧ m.listing.step? = .ok (some m'.listing) := by
  cases steps_iff.2 h with
  | leave => exact .inl ⟨rfl, rfl⟩
  | goOn effect =>
    refine .inr ⟨rfl, ?_⟩
    simp [listing, Listing.step?, Frame.tasks, effect]
  | splice effect =>
    refine .inr ⟨rfl, ?_⟩
    simp [listing, Listing.step?, Frame.tasks, effect, flatMap_tasks_below]

theorem Machine.takesUp_listing (h : TakesUp step? next? m taken m') :
    TakesUp Listing.step? Listing.next? m.listing taken m'.listing := by
  induction h with
  | nothing => exact .nothing
  | more before step ih =>
    rcases listing_step step with ⟨hnext, hlisting⟩ | ⟨hnext, hstep⟩
    · rw [hnext, hlisting]
      simpa using ih
    · rw [hnext]
      exact .more ih hstep

theorem Machine.Reaches.exists_takesUp (h : m.Reaches m') :
    ∃ taken, TakesUp step? next? m taken m' := by
  induction h with
  | refl => exact ⟨[], .nothing⟩
  | tail _ step ih =>
    obtain ⟨taken, before⟩ := ih
    exact ⟨_, .more before step⟩

theorem Listing.finish_tasks (f : Frame V) (stack : Stack V) :
    finish ⟨f.tasks, stack⟩ = execute f.scopes f.code stack := by
  obtain ⟨code, scopes⟩ := f
  induction code generalizing stack with
  | nil => exact (execute_nil scopes stack).symm
  | cons i code ih =>
    rw [execute_cons]
    exact bind_congr ih

/-- The machine does what it has left in its frames, and nothing else. -/
theorem Machine.run_eq_finish (m : Machine V) : m.run = m.listing.finish := by
  obtain ⟨frames, stack⟩ := m
  rw [run_eq_executeFrames]
  induction frames generalizing stack with
  | nil => rfl
  | cons f frames ih =>
    simp only [executeFrames, listing, Listing.finish, List.flatMap_cons, List.foldlM_append]
    rw [← Listing.finish_tasks]
    exact bind_congr ih

theorem Machine.Reaches.keeps {P : Machine V → Prop} (reached : m.Reaches m')
    (step : ∀ {m m' : Machine V}, P m → m.step? = .ok (some m') → P m') (h : P m) : P m' := by
  induction reached with
  | refl => exact h
  | tail _ next ih => exact step ih next

def Machine.NoneWaitsIdle (m : Machine V) : Prop := ∀ f ∈ m.frames.tail, f.code ≠ []

theorem Machine.NoneWaitsIdle.step (h : m.NoneWaitsIdle) (step : m.step? = .ok (some m')) :
    m'.NoneWaitsIdle := by
  cases steps_iff.2 step with
  | leave => exact fun f hf => h f (List.mem_of_mem_tail hf)
  | goOn effect => exact h
  | splice effect => exact Frame.forall_mem_below h

/-- No frame waits, and what is left of the running one refers to programs in last position only. -/
def Machine.IsSingle (m : Machine V) : Prop :=
  m.frames.tail = [] ∧ ∀ f ∈ m.frames, RefersLast f.scopes f.code

theorem Machine.IsSingle.step (h : m.IsSingle) (step : m.step? = .ok (some m')) :
    m'.IsSingle := by
  cases steps_iff.2 step with
  | leave =>
    obtain ⟨rfl, -⟩ := h
    exact ⟨rfl, List.forall_mem_nil _⟩
  | goOn effect =>
    obtain ⟨rfl, each⟩ := h
    have running := List.forall_mem_singleton.1 each
    exact ⟨rfl, List.forall_mem_singleton.2 running.tail⟩
  | splice effect =>
    obtain ⟨rfl, each⟩ := h
    obtain ⟨rfl, spliced⟩ := (List.forall_mem_singleton.1 each).splice effect
    exact ⟨rfl, List.forall_mem_singleton.2 spliced⟩

/-- In every state that a run comes to, whatever the resolvers are and however deep programs are
spliced in: every frame below the running one has an instruction left; the frames hold, from the top
one down, what is left of the list in which programs are put in place of the references to them,
after the same tasks have been taken up, and this is what the run goes on to do; and there are no two
frames if programs are referred to in last position only. -/
theorem waiting_frames_have_work (reached : (p.start scopes).Reaches m) :
    (∀ f ∈ m.frames.tail, f.code ≠ []) ∧
    (∃ taken, TakesUp Machine.step? Machine.next? (p.start scopes) taken m ∧
      TakesUp Listing.step? Listing.next? ⟨Frame.tasks ⟨p.code, scopes⟩, []⟩ taken m.listing) ∧
    m.run = m.listing.finish ∧
    (RefersLast scopes p.code → m.frames.length ≤ 1) := by
  refine ⟨?_, ?_, m.run_eq_finish, fun last => ?_⟩
  · have hstart : (p.start scopes).NoneWaitsIdle := List.forall_mem_nil _
    exact reached.keeps Machine.NoneWaitsIdle.step hstart
  · obtain ⟨taken, h⟩ := reached.exists_takesUp
    have hstart : (p.start scopes).listing = ⟨Frame.tasks ⟨p.code, scopes⟩, []⟩ := by
      simp [Machine.listing, Program.start]
    exact ⟨taken, h, hstart ▸ Machine.takesUp_listing h⟩
  · have hstart : (p.start scopes).IsSingle := ⟨rfl, List.forall_mem_singleton.2 last⟩
    obtain ⟨alone, -⟩ := reached.keeps Machine.IsSingle.step hstart
    rw [← List.length_eq_zero_iff, List.length_tail] at alone
    omega

end Runs

theorem Context.refersLast_scopesTo {ctx : Context}
    (last : ∀ key p, ctx.lookup key = some (.formula p) →
      ∀ before r after, p.code = before ++ .reference r :: after → after = [])
    (depth : Nat) {code : List (Instruction Value)}
    (lastHere : ∀ before r after, code = before ++ .reference r :: after → after = []) :
    RefersLast (ctx.scopesTo depth) code := by
  induction depth generalizing code with
  | zero => trivial
  | succ depth ih =>
    intro before r after p hcode resolved
    obtain ⟨bound, -⟩ := lookup_of_resolver_splice resolved
    exact ⟨lastHere before r after hcode, ih (last r.key p bound)⟩

namespace Sample

/-- `@b[two]`, where `b` is bound to `@a[one]`. -/
def commented : Program Value := ⟨[.reference ⟨"@", "b", ""⟩, .comment "two"], "@b[two]"⟩

def nested : Machine Value where
  frames :=
    [ ⟨[.term (.integer 1)], chain.scopesTo 1⟩,
      ⟨[.comment "one"], chain.scopesTo 2⟩,
      ⟨[.comment "two"], chain.scopesTo 3⟩ ]
  stack := []

theorem reaches_nested : (commented.start chain.scopes).Reaches nested := .tail (.single rfl) rfl

/-- Three keys, of which each but the first one is bound to a reference to the one before. -/
def relay : Context where
  entries :=
    [ ("a", .formula ⟨[.term (.integer 1)], "1"⟩),
      ("b", .formula ⟨[.reference ⟨"@", "a", ""⟩], "@a"⟩),
      ("c", .formula ⟨[.reference ⟨"@", "b", ""⟩], "@b"⟩) ]
  sorted := by decide

def relayed : Program Value := ⟨[.reference ⟨"@", "c", ""⟩], "@c"⟩

def followed : Machine Value where
  frames := [⟨[.term (.integer 1)], relay.scopesTo 1⟩]
  stack := []

theorem reaches_followed : (relayed.start relay.scopes).Reaches followed :=
  .tail (.tail (.single rfl) rfl) rfl

theorem eq_nil_of_singleton {i : Instruction Value} {before after : List (Instruction Value)}
    {r : Reference} (h : [i] = before ++ .reference r :: after) : after = [] := by
  cases before with
  | nil => cases h; rfl
  | cons j before => cases before <;> cases h

theorem relay_formulas {key : String} {p : Program Value}
    (bound : relay.lookup key = some (.formula p)) : ∃ i, p.code = [i] := by
  simp only [relay, Context.lookup, Context.find?] at bound
  split at bound
  · cases bound
    exact ⟨_, rfl⟩
  · split at bound
    · cases bound
      exact ⟨_, rfl⟩
    · split at bound
      · cases bound
        exact ⟨_, rfl⟩
      · cases bound

theorem relayed_refersLast : RefersLast relay.scopes relayed.code := by
  refine Context.refersLast_scopesTo (fun key p bound before r after h => ?_) _
    fun before r after h => eq_nil_of_singleton h
  obtain ⟨i, hi⟩ := relay_formulas bound
  exact eq_nil_of_singleton (hi.symm.trans h)

end Sample

open Sample in
theorem waiting_frames_have_work_nested :
    ((commented.start chain.scopes).Reaches nested ∧ nested.frames.length = 3 ∧
      (∀ f ∈ nested.frames.tail, f.code ≠ []) ∧
      (∃ taken, TakesUp Machine.step? Machine.next? (commented.start chain.scopes) taken nested ∧
        TakesUp Listing.step? Listing.next? ⟨Frame.tasks ⟨commented.code, chain.scopes⟩, []⟩ taken
          nested.listing) ∧
      nested.run = nested.listing.finish) ∧
    (relayed.start relay.scopes).Reaches followed ∧ RefersLast relay.scopes relayed.code ∧
      followed.frames.length ≤ 1 := by
  obtain ⟨work, listed, finish, -⟩ := waiting_frames_have_work reaches_nested
  obtain ⟨-, -, -, single⟩ := waiting_frames_have_work reaches_followed
  exact ⟨⟨reaches_nested, rfl, work, listed, finish⟩,
    reaches_followed, relayed_refersLast, single relayed_refersLast⟩

end FormulaEngine
