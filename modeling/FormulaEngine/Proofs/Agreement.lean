import FormulaEngine.Proofs.Compiling
import FormulaEngine.Proofs.Failures

/-!
# Agreement

A formula is compiled to code of the same shape whether it is to be evaluated or to be simplified.
Both runs of that code go in lockstep: the simplifier never fails by itself, so it fails only where
the operands that the evaluation misses are missing there too.
-/
namespace FormulaEngine

open Formula

/-- An instruction without the meaning of its words. -/
inductive Shape where
  | term
  | reference (r : Reference)
  | operator (symbol : String) (operands : Option Nat)
  | function (name : String) (operands : Option Nat)
  | arity (n : Nat)
  | comment (label : String)
  deriving DecidableEq

def Instruction.shape {V : Type} : Instruction V → Shape
  | .term _ => .term
  | .reference r => .reference r
  | .operator op => .operator op.symbol op.operation.arity?
  | .function f => .function f.name f.operation.arity?
  | .arity n => .arity n
  | .comment label => .comment label

def Program.shape {V : Type} (p : Program V) : List Shape := p.code.map Instruction.shape

theorem shape_instructions {V W : Type} [Operand V] [Operand W] (i : Interpretation V)
    (j : Interpretation W) (code : List Code) :
    (instructions i code).map Instruction.shape = (instructions j code).map Instruction.shape := by
  simp only [instructions, List.map_map]
  refine List.map_congr_left fun c _ => ?_
  cases c with
  | sign s => cases s <;> rfl
  | callee f => cases f <;> rfl
  | _ => rfl

theorem Grammar.Speaks.compile_cases {V W : Type} [Operand V] [Operand W] {i : Interpretation V}
    {j : Interpretation W} {g : Grammar V} {h : Grammar W} {ignoreBlanks : Bool}
    (speaks : g.Speaks ignoreBlanks i) (speaks' : h.Speaks ignoreBlanks j) (text : String) :
    (∃ e, g.compile text = .error e ∧ h.compile text = .error e) ∨
      ∃ code, g.compile text = .ok ⟨instructions i code, text⟩ ∧
        h.compile text = .ok ⟨instructions j code, text⟩ := by
  cases hg : g.compile text with
  | error e =>
    obtain ⟨d, hstalls, he⟩ := speaks.compile_eq_error_iff.1 hg
    exact .inl ⟨e, rfl, speaks'.compile_eq_error_iff.2 ⟨d, hstalls, he⟩⟩
  | ok p =>
    obtain ⟨pieces, hcuts, rfl⟩ := speaks.compile_eq_ok_iff.1 hg
    obtain ⟨code, _, huniform⟩ := exists_toPostfix (Entry.readAll pieces)
    refine .inr ⟨code, by rw [huniform, instructions], ?_⟩
    exact speaks'.compile_eq_ok_iff.2 ⟨pieces, hcuts, by rw [huniform, instructions]⟩

theorem Grammar.Speaks.shape_compile_eq {V W : Type} [Operand V] [Operand W]
    {i : Interpretation V} {j : Interpretation W} {g : Grammar V} {h : Grammar W}
    {ignoreBlanks : Bool} (speaks : g.Speaks ignoreBlanks i) (speaks' : h.Speaks ignoreBlanks j)
    (text : String) :
    (g.compile text).map Program.shape = (h.compile text).map Program.shape := by
  rcases speaks.compile_cases speaks' text with ⟨e, hg, hh⟩ | ⟨code, hg, hh⟩
  · rw [hg, hh]
    rfl
  · rw [hg, hh]
    exact congrArg Except.ok (shape_instructions i j code)

/-- The code is not that of a formula, whatever its words mean. -/
def ResolveError.isMalformed : ResolveError → Bool
  | .missingOperand _ _ => true
  | .missingArity _ => true
  | .invalidProgram _ => true
  | _ => false

/-- The second outcome keeps up with the first one: it succeeds where that does, with a related
result, and has the errors of malformed code in common with it. -/
def Follows {α β : Type} (related : α → β → Prop) : Outcome α → Outcome β → Prop
  | .ok a, y => ∃ b, y = .ok b ∧ related a b
  | .error e, y => e.isMalformed = true → y = .error e

namespace Follows

variable {α β γ δ : Type} {related : α → β → Prop} {related' : γ → δ → Prop}

theorem bind {x : Outcome α} {y : Outcome β} {f : α → Outcome γ} {g : β → Outcome δ}
    (first : Follows related x y) (next : ∀ a b, related a b → Follows related' (f a) (g b)) :
    Follows related' (x >>= f) (y >>= g) := by
  cases x with
  | ok a =>
    obtain ⟨b, rfl, hab⟩ := first
    exact next a b hab
  | error e =>
    intro he
    rw [first he]
    rfl

theorem map {x : Outcome α} {y : Outcome β} {f : α → γ} {g : β → δ} (first : Follows related x y)
    (next : ∀ a b, related a b → related' (f a) (g b)) :
    Follows related' (x.map f) (y.map g) := by
  cases x with
  | ok a =>
    obtain ⟨b, rfl, hab⟩ := first
    exact ⟨_, rfl, next a b hab⟩
  | error e =>
    intro he
    rw [first he]
    rfl

theorem of_failsOnly {x : Outcome α} {y : Outcome β} (hx : FailsOnly ResolveError.IsNumeric x)
    (hy : FailsOnly (fun _ => False) y) : Follows (fun _ _ => True) x y := by
  cases x with
  | ok a =>
    cases y with
    | ok b => exact ⟨b, rfl, trivial⟩
    | error e => exact (hy e rfl).elim
  | error e =>
    obtain ⟨text, rfl⟩ := hx e rfl
    intro he
    cases he

end Follows

section Runs

variable {V W : Type}

/-- The stacks have operands at the same places, and the same argument counts at the others. -/
inductive Alike : Stack V → Stack W → Prop where
  | nil : Alike [] []
  | value (v : V) (w : W) {s : Stack V} {t : Stack W} (rest : Alike s t) :
    Alike (.value v :: s) (.value w :: t)
  | arity (n : Nat) {s : Stack V} {t : Stack W} (rest : Alike s t) :
    Alike (.arity n :: s) (.arity n :: t)

theorem Alike.length_eq {s : Stack V} {t : Stack W} (h : Alike s t) : s.length = t.length := by
  induction h with
  | nil => rfl
  | value _ _ _ ih => exact congrArg (· + 1) ih
  | arity _ _ ih => exact congrArg (· + 1) ih

theorem follows_popOperand (name : String) (position : Nat) {s : Stack V} {t : Stack W}
    (h : Alike s t) : Follows (fun p q => Alike p.2 q.2) (popOperand name position s)
      (popOperand name position t) := by
  cases h with
  | nil => exact fun _ => rfl
  | value v w rest => exact ⟨_, rfl, rest⟩
  | arity n rest => exact fun _ => rfl

theorem follows_popArguments (name : String) (position count : Nat) (later : List V)
    (later' : List W) {s : Stack V} {t : Stack W} (h : Alike s t) :
    Follows (fun p q => Alike p.2 q.2) (popArguments name position count later s)
      (popArguments name position count later' t) := by
  induction count generalizing position later later' s t with
  | zero => exact ⟨_, rfl, h⟩
  | succ count ih =>
    have hpop := follows_popOperand name position h
    rw [popArguments, popArguments]
    cases hs : popOperand name position s with
    | error e =>
      rw [hs] at hpop
      intro he
      rw [hpop he]
    | ok p =>
      rw [hs] at hpop
      obtain ⟨q, hq, halike⟩ := hpop
      rw [hq]
      exact ih (position + 1) _ _ halike

theorem follows_invoke (name : String) {c : Operation V} {d : Operation W}
    (operands : c.arity? = d.arity?) (numeric : c.FailsOnly ResolveError.IsNumeric)
    (total : d.FailsOnly fun _ => False) {s : Stack V} {t : Stack W} (h : Alike s t) :
    Follows Alike (c.invoke name s) (d.invoke name t) := by
  have push : ∀ {s : Stack V} {t : Stack W}, Alike s t → ∀ v w, True →
      Follows Alike (pure (.value v :: s)) (pure (.value w :: t)) :=
    fun h v w _ => ⟨_, rfl, .value v w h⟩
  match c, d with
  | .nullary f, .nullary g => exact (Follows.of_failsOnly numeric total).bind (push h)
  | .unary f, .unary g =>
    exact (follows_popOperand name 1 h).bind fun p q h =>
      (Follows.of_failsOnly (numeric p.1) (total q.1)).bind (push h)
  | .binary f, .binary g =>
    exact (follows_popOperand name 1 h).bind fun p q h =>
      (follows_popOperand name 2 h).bind fun p' q' h =>
        (Follows.of_failsOnly (numeric p'.1 p.1) (total q'.1 q.1)).bind (push h)
  | .ternary f, .ternary g =>
    exact (follows_popOperand name 1 h).bind fun p q h =>
      (follows_popOperand name 2 h).bind fun p' q' h =>
        (follows_popOperand name 3 h).bind fun p'' q'' h =>
          (Follows.of_failsOnly (numeric p''.1 p'.1 p.1) (total q''.1 q'.1 q.1)).bind (push h)
  | .variadic f, .variadic g =>
    cases h with
    | nil => exact fun _ => rfl
    | value v w rest => exact fun _ => rfl
    | arity n rest =>
      exact (follows_popArguments name 1 n [] [] rest).bind fun p q h =>
        (Follows.of_failsOnly (numeric p.1) (total q.1)).bind (push h)

variable [Operand V] [Operand W]

/-- Every reference stands for a value. -/
def Resolver.Settles (scope : Resolver V) : Prop := ∀ r, ∃ v, scope r = .ok (.value v)

theorem follows_execute_singleton {scope : Resolver V} {scope' : Resolver W}
    (settles : scope.Settles) (settles' : scope'.Settles) {i : Instruction V} {j : Instruction W}
    (shape : i.shape = j.shape) (numeric : i.FailsOnly ResolveError.IsNumeric)
    (total : j.FailsOnly fun _ => False) {s : Stack V} {t : Stack W} (h : Alike s t) :
    Follows Alike (execute [scope] [i] s) (execute [scope'] [j] t) := by
  match i, j with
  | .term v, .term w =>
    rw [execute_cons_goOn rfl, execute_cons_goOn rfl, execute_nil, execute_nil]
    exact ⟨_, rfl, .value v w h⟩
  | .reference r, .reference r' =>
    obtain ⟨v, hv⟩ := settles r
    obtain ⟨w, hw⟩ := settles' r'
    rw [execute_reference, execute_reference, hv, hw]
    exact ⟨_, rfl, .value v w h⟩
  | .operator op, .operator op' =>
    obtain ⟨hname, hoperands⟩ := Shape.operator.inj shape
    rw [execute_operation rfl, execute_operation rfl, ← hname]
    exact follows_invoke op.symbol hoperands numeric total h
  | .function f, .function f' =>
    obtain ⟨hname, hoperands⟩ := Shape.function.inj shape
    rw [execute_operation rfl, execute_operation rfl, ← hname]
    exact follows_invoke f.name hoperands numeric total h
  | .arity n, .arity m =>
    obtain rfl := Shape.arity.inj shape
    rw [execute_cons_goOn rfl, execute_cons_goOn rfl, execute_nil, execute_nil]
    exact ⟨_, rfl, .arity n h⟩
  | .comment label, .comment label' =>
    obtain rfl := Shape.comment.inj shape
    rw [execute_operation (effect_comment _ label s), execute_operation (effect_comment _ label t)]
    exact (follows_popOperand label 1 h).map fun p q h => .value _ _ h

/-- A run keeps up with another one of code of the same shape. -/
theorem follows_execute {scope : Resolver V} {scope' : Resolver W} (settles : scope.Settles)
    (settles' : scope'.Settles) {code : List (Instruction V)} {code' : List (Instruction W)}
    (shape : code.map Instruction.shape = code'.map Instruction.shape)
    (numeric : ∀ i ∈ code, i.FailsOnly ResolveError.IsNumeric)
    (total : ∀ j ∈ code', j.FailsOnly fun _ => False) {s : Stack V} {t : Stack W} (h : Alike s t) :
    Follows Alike (execute [scope] code s) (execute [scope'] code' t) := by
  induction code generalizing code' s t with
  | nil =>
    obtain rfl : code' = [] := by simpa using shape.symm
    rw [execute_nil, execute_nil]
    exact ⟨t, rfl, h⟩
  | cons i code ih =>
    obtain ⟨j, code', rfl, hj, hcode⟩ := List.map_eq_cons_iff.1 shape.symm
    rw [execute_cons _ i, execute_cons _ j]
    refine (follows_execute_singleton settles settles' hj.symm (numeric i (by simp))
      (total j (by simp)) h).bind fun s t h => ?_
    exact ih hcode.symm (fun i hi => numeric i (by simp [hi]))
      (fun j hj => total j (by simp [hj])) h

omit [Operand V] [Operand W] in
theorem follows_result {s : Stack V} {t : Stack W} (h : Alike s t) :
    Follows (fun _ _ => True) s.result t.result := by
  have remaining : Follows (fun (_ : V) (_ : W) => True)
      (.error (.invalidProgram s.length)) (.error (.invalidProgram t.length)) := by
    rw [h.length_eq]
    exact fun _ => rfl
  cases h with
  | nil => exact remaining
  | arity n rest => exact remaining
  | value v w rest =>
    cases rest with
    | nil => exact ⟨w, rfl, trivial⟩
    | value _ _ _ => exact remaining
    | arity _ _ => exact remaining

theorem follows_evaluate {scope : Resolver V} {scope' : Resolver W} (settles : scope.Settles)
    (settles' : scope'.Settles) {p : Program V} {q : Program W} (shape : p.shape = q.shape)
    (numeric : ∀ i ∈ p.code, i.FailsOnly ResolveError.IsNumeric)
    (total : ∀ j ∈ q.code, j.FailsOnly fun _ => False) :
    Follows (fun _ _ => True) (p.evaluate [scope]) (q.evaluate [scope']) := by
  rw [evaluate_eq_execute, evaluate_eq_execute]
  exact (follows_execute settles settles' shape numeric total .nil).bind fun _ _ => follows_result

end Runs

theorem Symbol.resolver_settles : Resolver.Settles Symbol.resolver := fun _ => ⟨_, rfl⟩

theorem Context.resolver_empty_settles (deeper : List (Resolver Value)) :
    Resolver.Settles (Context.empty.resolver deeper) := by
  intro r
  unfold resolver
  split
  · rename_i hstar
    refine ⟨.list [], ?_⟩
    simp [searchWith, keysMatching, hstar, keys, empty, getEach]
  · exact ⟨.null, rfl⟩

namespace Formula

variable {o : Options} {text : String}

theorem evaluate_of_blank (blank : Text.isBlankText text = true) (ctx : Context) :
    evaluate o ctx text = .ok .null := by
  simp only [evaluate, parse, blank, if_true]
  rfl

theorem optimize_of_blank (blank : Text.isBlankText text = true) : optimize o text = .ok "" :=
  if_pos blank

theorem evaluate_of_compile {g : Grammar Value} {p : Program Value}
    (notBlank : Text.isBlankText text = false) (built : grammar o = .ok g)
    (compiled : g.compile text = .ok p) (ctx : Context) :
    evaluate o ctx text = (p.evaluate ctx.scopes).mapError fun e => ⟨text, .resolve e⟩ := by
  simp only [evaluate, parse, notBlank, Bool.false_eq_true, if_false, built, compiled,
    Binding.resolve, Binding.resolveWith]
  cases p.evaluate ctx.scopes <;> rfl

theorem optimize_of_compile {s : Grammar Symbol} {q : Program Symbol}
    (notBlank : Text.isBlankText text = false) (built : symbolGrammar o = .ok s)
    (compiled : s.compile text = .ok q) :
    optimize o text = ((q.evaluate [Symbol.resolver]).map Symbol.formulaText).mapError
      fun e => ⟨text, .resolve e⟩ := by
  simp only [optimize, symbol, notBlank, Bool.false_eq_true, if_false, built, compiled]
  cases q.evaluate [Symbol.resolver] <;> rfl

theorem evaluate_of_compile_error {g : Grammar Value} {e : ParseError}
    (notBlank : Text.isBlankText text = false) (built : grammar o = .ok g)
    (compiled : g.compile text = .error e) (ctx : Context) :
    evaluate o ctx text = .error ⟨text, .parse e⟩ := by
  simp only [evaluate, parse, notBlank, Bool.false_eq_true, if_false, built, compiled]

theorem follows_simplification (strict : Bool) (code : List Code) (text : String) :
    Follows (fun _ _ => True)
      ((Program.mk (instructions (arithmetic strict) code) text).evaluate Context.empty.scopes)
      ((Program.mk (instructions Symbol.writing code) text).evaluate [Symbol.resolver]) := by
  refine follows_evaluate (Context.resolver_empty_settles []) Symbol.resolver_settles
    (shape_instructions (arithmetic strict) Symbol.writing code) ?_ ?_
  · intro i hi
    obtain ⟨c, _, rfl⟩ := List.mem_map.1 hi
    exact numeric_instruction strict c
  · intro i hi
    obtain ⟨c, _, rfl⟩ := List.mem_map.1 hi
    exact total_instruction c

/-- The grammar for evaluation and the one for simplification take the same texts for formulas, and
compile them to code of the same shape. With nothing bound a formula that has a value can be
simplified, and one whose code is malformed fails with the same report. -/
theorem grammars_agree (o : Options) :
    ∃ g s, grammar o = .ok g ∧ symbolGrammar o = .ok s ∧ ∀ text,
      (g.compile text).map Program.shape = (s.compile text).map Program.shape ∧
      (∀ v, evaluate o .empty text = .ok v → ∃ out, optimize o text = .ok out) ∧
      ∀ report e, evaluate o .empty text = .error report → report.cause = .resolve e →
        e.isMalformed = true → optimize o text = .error report := by
  obtain ⟨g, hg, speaks⟩ := exists_grammar o (arithmetic o.strict)
  obtain ⟨s, hs, speaks'⟩ := exists_symbolGrammar o
  refine ⟨g, s, hg, hs, fun text => ⟨speaks.shape_compile_eq speaks' text, ?_⟩⟩
  cases blank : Text.isBlankText text with
  | true =>
    rw [evaluate_of_blank blank, optimize_of_blank blank]
    exact ⟨fun _ _ => ⟨_, rfl⟩, nofun⟩
  | false =>
    rcases speaks.compile_cases speaks' text with ⟨e, hp, _⟩ | ⟨code, hp, hq⟩
    · rw [evaluate_of_compile_error blank hg hp]
      refine ⟨nofun, ?_⟩
      rintro _ e ⟨⟩ ⟨⟩
    · have hfollows := follows_simplification o.strict code text
      rw [evaluate_of_compile blank hg hp, optimize_of_compile blank hs hq]
      cases heval : (Program.mk (instructions (arithmetic o.strict) code) text).evaluate
          Context.empty.scopes with
      | ok v =>
        rw [heval] at hfollows
        obtain ⟨symbol, hsymbol, _⟩ := hfollows
        rw [hsymbol]
        exact ⟨fun _ _ => ⟨_, rfl⟩, nofun⟩
      | error e =>
        rw [heval] at hfollows
        refine ⟨nofun, ?_⟩
        rintro _ e' ⟨⟩ ⟨⟩ he
        rw [hfollows he]
        rfl

/-- A sum has a value and can be simplified; a dangling operator misses the same operand. -/
theorem grammars_agree_sum :
    (∃ out, optimize {} "1+2" = .ok out) ∧
      optimize {} "1+" = .error ⟨"1+", .resolve (.missingOperand "+" 2)⟩ := by
  obtain ⟨_, _, _, _, hagree⟩ := grammars_agree {}
  have hvalue : (evaluate {} .empty "1+2").isOk = true := by
    rw [evaluate, parse_eq_compileAs]
    decide +kernel
  have hmissing : (match evaluate {} .empty "1+" with
      | .error report => some report
      | .ok _ => none) = some ⟨"1+", .resolve (.missingOperand "+" 2)⟩ := by
    rw [evaluate, parse_eq_compileAs]
    decide +kernel
  constructor
  · cases h : evaluate {} .empty "1+2" with
    | ok v => exact (hagree "1+2").2.1 v h
    | error report =>
      rw [h] at hvalue
      cases hvalue
  · cases h : evaluate {} .empty "1+" with
    | ok v =>
      rw [h] at hmissing
      cases hmissing
    | error report =>
      rw [h] at hmissing
      cases hmissing
      exact (hagree "1+").2.2 _ _ h rfl rfl

end Formula

end FormulaEngine
