import FormulaEngine.Formula.Arithmetic
import FormulaEngine.Proofs.Emission
import FormulaEngine.Proofs.References

/-!
# Formulas in brackets

Tokens between brackets are read as they are on their own: what is pending outside stays apart from
what they leave pending. So a reference to a formula and the formula itself in brackets come to the
same instructions, one level of splicing apart.
-/
namespace FormulaEngine

variable {V : Type} {listOperator : Option (Operator V)}

/-- Every bracket that is closed was opened, and every bracket that is opened is closed. -/
def balancedFrom : (depth : Nat) → List (Token V) → Bool
  | depth, [] => depth == 0
  | depth, .opening :: tokens => balancedFrom (depth + 1) tokens
  | 0, .closing :: _ => false
  | depth + 1, .closing :: tokens => balancedFrom depth tokens
  | depth, _ :: tokens => balancedFrom depth tokens

def Balanced (tokens : List (Token V)) : Prop := balancedFrom 0 tokens = true

def Pending.isBracket : Pending V → Bool
  | .call _ _ => true
  | .group => true
  | _ => false

def openBrackets (pending : List (Pending V)) : Nat := pending.countP Pending.isBracket

theorem openBrackets_cons (p : Pending V) (pending : List (Pending V)) :
    openBrackets (p :: pending) = openBrackets pending + if p.isBracket then 1 else 0 :=
  List.countP_cons

/-- Nothing but an open bracket that groups is on top of what is pending. -/
def isBarrier : List (Pending V) → Bool
  | [] => true
  | .group :: _ => true
  | _ => false

theorem completeBefore_append (op : Operator V) (pending : List (Pending V))
    {base : List (Pending V)} (barrier : isBarrier base = true) :
    completeBefore op (pending ++ base) =
      ((completeBefore op pending).1, (completeBefore op pending).2 ++ base) := by
  induction pending with
  | nil =>
    cases base with
    | nil => rfl
    | cons p base => cases p <;> first | rfl | cases barrier
  | cons p pending ih =>
    cases p with
    | operator top =>
      simp only [List.cons_append, completeBefore, ih]
      split <;> rfl
    | _ => rfl

theorem completeInside_append (pending : List (Pending V)) {base : List (Pending V)}
    (barrier : isBarrier base = true) :
    completeInside (pending ++ base) =
      ((completeInside pending).1, (completeInside pending).2 ++ base) := by
  induction pending with
  | nil =>
    cases base with
    | nil => rfl
    | cons p base => cases p <;> first | rfl | cases barrier
  | cons p pending ih =>
    cases p <;> first | rfl | simp only [List.cons_append, completeInside, ih]

theorem insideCall_append (pending : List (Pending V)) {base : List (Pending V)}
    (barrier : isBarrier base = true) : insideCall (pending ++ base) = insideCall pending := by
  induction pending with
  | nil =>
    cases base with
    | nil => rfl
    | cons p base => cases p <;> first | rfl | cases barrier
  | cons p pending ih =>
    cases p <;> first | rfl | simpa only [List.cons_append, insideCall] using ih

theorem pendOperator_append (op : Operator V) (pending : List (Pending V))
    {base : List (Pending V)} (barrier : isBarrier base = true) :
    pendOperator op (pending ++ base) =
      ((pendOperator op pending).1, (pendOperator op pending).2 ++ base) := by
  unfold pendOperator
  split
  · rfl
  · simp only [completeBefore_append op pending barrier, List.cons_append]

theorem separate_append (pending : List (Pending V)) {base : List (Pending V)}
    (barrier : isBarrier base = true) :
    separate listOperator (pending ++ base) =
      ((separate listOperator pending).1, (separate listOperator pending).2 ++ base) := by
  unfold separate
  rw [insideCall_append pending barrier, completeInside_append pending barrier]
  split
  · exact pendOperator_append _ pending barrier
  · obtain ⟨code, rest⟩ := completeInside pending
    cases rest with
    | nil =>
      cases base with
      | nil => rfl
      | cons p base => cases p <;> first | rfl | cases barrier
    | cons p rest => cases p <;> rfl

theorem completeInside_eq_cons {pending : List (Pending V)} (h : 0 < openBrackets pending) :
    ∃ p rest, (completeInside pending).2 = p :: rest ∧ p.isBracket = true ∧
      openBrackets rest + 1 = openBrackets pending := by
  induction pending with
  | nil => simp [openBrackets] at h
  | cons p pending ih =>
    cases p with
    | operator op =>
      simpa [openBrackets_cons, Pending.isBracket, completeInside] using
        ih (by simpa [openBrackets_cons, Pending.isBracket] using h)
    | function f =>
      simpa [openBrackets_cons, Pending.isBracket, completeInside] using
        ih (by simpa [openBrackets_cons, Pending.isBracket] using h)
    | call f n =>
      exact ⟨.call f n, pending, rfl, rfl, by simp [openBrackets_cons, Pending.isBracket]⟩
    | group => exact ⟨.group, pending, rfl, rfl, by simp [openBrackets_cons, Pending.isBracket]⟩

theorem closeBracket_append (previous : Option (Token V)) {pending : List (Pending V)}
    (opened : 0 < openBrackets pending) {base : List (Pending V)}
    (barrier : isBarrier base = true) :
    closeBracket previous (pending ++ base) =
      ((closeBracket previous pending).1, (closeBracket previous pending).2 ++ base) := by
  obtain ⟨p, rest, hrest, hp, _⟩ := completeInside_eq_cons opened
  unfold closeBracket
  rw [completeInside_append pending barrier]
  simp only [hrest, List.cons_append]
  cases p <;> rfl

/-- The name of a function that the next token may open the arguments of is pending on top. -/
def NamePending (previous : Option (Token V)) (pending : List (Pending V)) : Prop :=
  ∀ f, previous = some (.function f) → ∃ rest, pending = .function f :: rest

theorem namePending_emit (previous : Option (Token V)) (pending : List (Pending V))
    (token : Token V) : NamePending (some token) (emit listOperator previous pending token).2 := by
  intro f hf
  cases hf
  exact ⟨pending, rfl⟩

theorem openBracket_append {previous : Option (Token V)} {pending : List (Pending V)}
    (named : NamePending previous pending) (base : List (Pending V)) :
    openBracket previous (pending ++ base) =
      ((openBracket previous pending).1, (openBracket previous pending).2 ++ base) := by
  unfold openBracket
  split
  · obtain ⟨rest, rfl⟩ := named _ rfl
    rfl
  · rfl

theorem emit_append {previous : Option (Token V)} {pending base : List (Pending V)}
    (barrier : isBarrier base = true) (named : NamePending previous pending) {token : Token V}
    (opened : token = .closing → 0 < openBrackets pending) :
    emit listOperator previous (pending ++ base) token =
      ((emit listOperator previous pending token).1,
        (emit listOperator previous pending token).2 ++ base) := by
  cases token with
  | operator op => exact pendOperator_append op pending barrier
  | twoWay unary binary => exact pendOperator_append _ pending barrier
  | opening => exact openBracket_append named base
  | closing => exact closeBracket_append previous (opened rfl) barrier
  | separator => exact separate_append pending barrier
  | _ => rfl

theorem openBrackets_completeBefore (op : Operator V) (pending : List (Pending V)) :
    openBrackets (completeBefore op pending).2 = openBrackets pending := by
  induction pending with
  | nil => rfl
  | cons p pending ih =>
    cases p with
    | operator top =>
      simp only [completeBefore]
      split
      · simpa [openBrackets_cons, Pending.isBracket] using ih
      · rfl
    | _ => rfl

theorem openBrackets_pendOperator (op : Operator V) (pending : List (Pending V)) :
    openBrackets (pendOperator op pending).2 = openBrackets pending := by
  unfold pendOperator
  split
  · rfl
  · simpa [openBrackets_cons, Pending.isBracket] using openBrackets_completeBefore op pending

theorem openBrackets_completeInside (pending : List (Pending V)) :
    openBrackets (completeInside pending).2 = openBrackets pending := by
  induction pending with
  | nil => rfl
  | cons p pending ih =>
    cases p <;> first | rfl | simpa [completeInside, openBrackets_cons, Pending.isBracket] using ih

theorem openBrackets_separate (pending : List (Pending V)) :
    openBrackets (separate listOperator pending).2 = openBrackets pending := by
  unfold separate
  split
  · exact openBrackets_pendOperator _ pending
  · have h := openBrackets_completeInside pending
    generalize completeInside pending = inside at h ⊢
    obtain ⟨code, rest⟩ := inside
    cases rest with
    | nil => exact h
    | cons p rest => cases p <;> simpa [openBrackets_cons, Pending.isBracket] using h

theorem openBrackets_openBracket {previous : Option (Token V)} {pending : List (Pending V)}
    (named : NamePending previous pending) :
    openBrackets (openBracket previous pending).2 = openBrackets pending + 1 := by
  unfold openBracket
  split
  · obtain ⟨rest, rfl⟩ := named _ rfl
    simp [openBrackets_cons, Pending.isBracket]
  · simp [openBrackets_cons, Pending.isBracket]

theorem openBrackets_closeBracket (previous : Option (Token V)) {pending : List (Pending V)}
    (opened : 0 < openBrackets pending) :
    openBrackets (closeBracket previous pending).2 + 1 = openBrackets pending := by
  obtain ⟨p, rest, hrest, hp, hcount⟩ := completeInside_eq_cons opened
  unfold closeBracket
  simp only [hrest]
  cases p with
  | call f n => exact hcount
  | group => exact hcount
  | operator op => cases hp
  | function f => cases hp

variable (listOperator) in
theorem balancedFrom_emit {previous : Option (Token V)} {pending : List (Pending V)}
    {token : Token V} {tokens : List (Token V)} (named : NamePending previous pending)
    (balanced : balancedFrom (openBrackets pending) (token :: tokens) = true) :
    (token = .closing → 0 < openBrackets pending) ∧
      balancedFrom (openBrackets (emit listOperator previous pending token).2) tokens = true := by
  cases token with
  | opening =>
    refine ⟨nofun, ?_⟩
    rw [emit, openBrackets_openBracket named]
    exact balanced
  | closing =>
    have opened : 0 < openBrackets pending := by
      by_contra h
      rw [Nat.eq_zero_of_not_pos h] at balanced
      cases balanced
    have hcount := openBrackets_closeBracket previous opened
    refine ⟨fun _ => opened, ?_⟩
    rw [← hcount] at balanced
    exact balanced
  | operator op =>
    refine ⟨nofun, ?_⟩
    rw [emit, openBrackets_pendOperator]
    exact balanced
  | twoWay unary binary =>
    refine ⟨nofun, ?_⟩
    rw [emit, openBrackets_pendOperator]
    exact balanced
  | separator =>
    refine ⟨nofun, ?_⟩
    rw [emit, openBrackets_separate]
    exact balanced
  | function f =>
    refine ⟨nofun, ?_⟩
    rw [emit, openBrackets_cons]
    exact balanced
  | _ => exact ⟨nofun, balanced⟩

variable (listOperator) in
/-- Balanced tokens are read in the same way above a bracket as on their own, and leave no bracket
open. -/
theorem emitAll_append_base (base : List (Pending V)) (barrier : isBarrier base = true)
    (previous : Option (Token V)) (pending : List (Pending V)) {tokens : List (Token V)}
    (named : NamePending previous pending)
    (balanced : balancedFrom (openBrackets pending) tokens = true) :
    emitAll listOperator previous (pending ++ base) tokens =
        ((emitAll listOperator previous pending tokens).1,
          (emitAll listOperator previous pending tokens).2 ++ base) ∧
      openBrackets (emitAll listOperator previous pending tokens).2 = 0 := by
  -- The depth of the balance is the number of brackets that are open in `pending`.
  induction tokens generalizing previous pending with
  | nil => exact ⟨rfl, by simpa [balancedFrom, emitAll] using balanced⟩
  | cons token tokens ih =>
    obtain ⟨opened, hrest⟩ := balancedFrom_emit listOperator named balanced
    obtain ⟨hread, hnone⟩ := ih _ _ (namePending_emit previous pending token) hrest
    refine ⟨?_, hnone⟩
    simp only [emitAll, emit_append barrier named opened, hread]

theorem completeInside_append_of_openBrackets {pending : List (Pending V)}
    (none : openBrackets pending = 0) (base : List (Pending V)) :
    completeInside (pending ++ .group :: base) = (completeAll pending, .group :: base) := by
  induction pending with
  | nil => rfl
  | cons p pending ih =>
    cases p with
    | operator op =>
      have ih := ih (by simpa [openBrackets_cons, Pending.isBracket] using none)
      simp only [List.cons_append, completeInside, ih, completeAll]
    | function f =>
      have ih := ih (by simpa [openBrackets_cons, Pending.isBracket] using none)
      simp only [List.cons_append, completeInside, ih, completeAll]
    | call f n => simp [openBrackets_cons, Pending.isBracket] at none
    | group => simp [openBrackets_cons, Pending.isBracket] at none

theorem emitAll_opening {tokens : List (Token V)} (balanced : Balanced tokens) :
    emitAll listOperator (some .opening) [] tokens = emitAll listOperator none [] tokens := by
  cases tokens with
  | nil => rfl
  | cons token tokens =>
    cases token with
    | closing => cases balanced
    | _ => rfl

variable (listOperator) in
theorem emitAll_bracketed {tokens : List (Token V)} (balanced : Balanced tokens)
    {previous : Option (Token V)} (uncalled : ∀ f, previous ≠ some (.function f))
    (pending : List (Pending V)) :
    emitAll listOperator previous pending (.opening :: tokens ++ [.closing]) =
      (toPostfix listOperator tokens, pending) := by
  have hopen : emit listOperator previous pending .opening = ([], .group :: pending) := by
    cases previous with
    | none => rfl
    | some token =>
      cases token with
      | function f => exact absurd rfl (uncalled f)
      | _ => rfl
  obtain ⟨hread, hnone⟩ := emitAll_append_base listOperator (.group :: pending) rfl
    (some .opening) [] nofun balanced
  rw [emitAll_opening balanced] at hread hnone
  have hclose : ∀ last, emit listOperator last
      ((emitAll listOperator none [] tokens).2 ++ .group :: pending) .closing =
        (completeAll (emitAll listOperator none [] tokens).2, pending) := by
    intro last
    simp only [emit, closeBracket, completeInside_append_of_openBrackets hnone]
  rw [toPostfix, postfixFrom_eq_emitAll]
  simpa using emitAll_cons_eq hopen (emitAll_append_eq hread
    (emitAll_singleton_eq (hclose _)))

theorem postfixFrom_closing (r : Reference) (pending : List (Pending V))
    (tokens : List (Token V)) :
    postfixFrom listOperator (some .closing) pending tokens =
      postfixFrom listOperator (some (.reference r)) pending tokens := by
  cases tokens with
  | nil => rfl
  | cons token tokens => cases token <;> rfl

variable (listOperator) in
/-- A balanced run of tokens in brackets stands for its instructions in the place of a reference. -/
theorem toPostfix_bracketed {before tokens : List (Token V)} (after : List (Token V))
    (balanced : Balanced tokens)
    (uncalled : ∀ f, before.getLast? ≠ some (.function f)) (r : Reference) :
    ∃ first last, toPostfix listOperator (before ++ .reference r :: after) =
        first ++ ([.reference r] ++ last) ∧
      toPostfix listOperator (before ++ (.opening :: tokens ++ [.closing]) ++ after) =
        first ++ (toPostfix listOperator tokens ++ last) := by
  have uncalled : ∀ f, lastToken none before ≠ some (.function f) := by
    simpa [lastToken] using uncalled
  have hbracketed := emitAll_bracketed listOperator balanced uncalled
    (emitAll listOperator none [] before).2
  refine ⟨(emitAll listOperator none [] before).1,
    postfixFrom listOperator (some (.reference r)) (emitAll listOperator none [] before).2 after,
    ?_, ?_⟩
  · rw [toPostfix, postfixFrom_append]
    rfl
  · rw [toPostfix, List.append_assoc, postfixFrom_append, postfixFrom_append, hbracketed]
    simp [postfixFrom_closing r]

/-- A reference to a formula comes to the same as that formula in brackets in its place. -/
theorem evaluate_reference_eq_bracketed {listOperator : Option (Operator Value)} {ctx : Context}
    (acyclic : ctx.Acyclic) {before after tokens : List (Token Value)} {r : Reference}
    (point : Wildcard.isPattern r.key.toList = false)
    (uncalled : ∀ f, before.getLast? ≠ some (.function f)) (balanced : Balanced tokens)
    {text : String}
    (bound : ctx.lookup r.key = some (.formula ⟨toPostfix listOperator tokens, text⟩))
    (written inlined : String) :
    (Program.mk (toPostfix listOperator (before ++ .reference r :: after)) written).evaluate
        ctx.scopes =
      (Program.mk (toPostfix listOperator
        (before ++ (.opening :: tokens ++ [.closing]) ++ after)) inlined).evaluate ctx.scopes := by
  obtain ⟨first, last, hreference, hbracketed⟩ :=
    toPostfix_bracketed listOperator after balanced uncalled r
  have hresolve : ctx.resolver (ctx.scopesTo ctx.size) r =
      .ok (.splice ⟨toPostfix listOperator tokens, text⟩) := by
    simp only [Context.resolver, point, bound]
    rfl
  have hsplice : ∀ stack, execute ctx.scopes [.reference r] stack =
      execute ctx.scopes (toPostfix listOperator tokens) stack := by
    intro stack
    rw [Context.scopes_eq_cons, execute_reference, hresolve]
    exact Context.execute_scopesTo_of_bound acyclic bound (.formula _) (Nat.le_refl _)
      (Nat.le_succ _) stack
  have hlast : execute ctx.scopes ([.reference r] ++ last) =
      execute ctx.scopes (toPostfix listOperator tokens ++ last) := by
    funext stack
    rw [execute_append, execute_append, hsplice]
  simp only [evaluate_eq_execute, hreference, hbracketed, execute_append _ first, hlast]

namespace Sample

open Formula

def sign (op : BinaryOperator) : Operator Value := (arithmetic false).binaryOperator op

/-- `+2`, which lacks an operand on its own. -/
def increment : List (Token Value) := [.operator (sign .add), .term (.integer 2)]

def incrementContext : Context where
  entries := [("n", .formula ⟨toPostfix (some (sign .list)) increment, "+2"⟩)]
  sorted := by decide

theorem incrementContext_acyclic : incrementContext.Acyclic := by
  refine Context.acyclic_of_lt (fun _ => 0) ?_
  rintro key target ⟨b, p, hb, hp, r, hr, _⟩
  simp only [incrementContext, Context.lookup, Context.find?] at hb
  split at hb
  · cases hb
    cases hp
    have hcode : toPostfix (some (sign .list)) increment =
        [.term (.integer 2), .operator (sign .add)] := rfl
    simp [hcode] at hr
  · cases hb

end Sample

open Sample in
theorem evaluate_reference_eq_bracketed_increment :
    (Program.mk (toPostfix (some (sign .list)) ([.term (.integer 3), .operator (sign .multiply)] ++
        .reference ⟨"@", "n", ""⟩ :: [])) "3*@n").evaluate incrementContext.scopes =
      (Program.mk (toPostfix (some (sign .list)) ([.term (.integer 3), .operator (sign .multiply)] ++
        (.opening :: increment ++ [.closing]) ++ [])) "3*(+2)").evaluate incrementContext.scopes :=
  evaluate_reference_eq_bracketed incrementContext_acyclic rfl (by simp)
    (by simp [increment, Balanced, balancedFrom]) rfl "3*@n" "3*(+2)"

end FormulaEngine
