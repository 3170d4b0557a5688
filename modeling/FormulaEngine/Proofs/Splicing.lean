import FormulaEngine.Proofs.References

/-!
# Splicing and nested evaluation

A program that is spliced in runs on the stack of the one that refers to it. In a context without
cycles this is the same as to evaluate it on its own and to go on with its value, provided that it
has one.
-/
namespace FormulaEngine

namespace Context

/-- What a key in a formula stands for if every key is evaluated on its own. -/
def valueResolver (ctx : Context) : Resolver Value := fun r =>
  if Wildcard.isPattern r.key.toList then
    match ctx.search r.key with
    | .error e => .error e
    | .ok found => .ok (.value (.list (found.map Prod.snd)))
  else
    match ctx.get r.key with
    | .error e => .error e
    | .ok v => .ok (.value v)

def ResolvesNamed (ctx : Context) (code : List (Instruction Value)) : Prop :=
  ∀ r, .reference r ∈ code → Wildcard.isPattern r.key.toList = false → ∃ v, ctx.get r.key = .ok v

theorem getWith_scopesTo_size {ctx : Context} (acyclic : ctx.Acyclic) (key : String) :
    ctx.getWith (ctx.scopesTo ctx.size) key = ctx.get key := by
  unfold get getWith
  split
  · rename_i b hb
    exact resolveWith_scopesTo_of_bound acyclic hb (Nat.le_refl _) (Nat.le_succ _)
  · rfl

theorem resolver_eq_valueResolver {ctx : Context} (acyclic : ctx.Acyclic) {r : Reference}
    (unspliced : ∀ p, ctx.resolver (ctx.scopesTo ctx.size) r ≠ .ok (.splice p)) :
    ctx.resolver (ctx.scopesTo ctx.size) r = ctx.valueResolver r := by
  unfold resolver at unspliced ⊢
  unfold valueResolver
  split
  · have hsearch : ctx.searchWith (ctx.scopesTo ctx.size) r.key = ctx.search r.key :=
      getEach_congr fun key _ => getWith_scopesTo_size acyclic key
    cases hs : ctx.search r.key <;> simp only [hsearch, hs]
  · rename_i hpoint
    rw [← getWith_scopesTo_size acyclic, getWith]
    cases hb : ctx.lookup r.key with
    | none => rfl
    | some b =>
      cases b with
      | formula p => exact absurd (by simp only [hpoint, hb]; rfl) (unspliced p)
      | _ => rfl

/-- A program that is spliced in puts the value of its key on the stack. -/
theorem execute_spliced {ctx : Context} (acyclic : ctx.Acyclic) {key : String}
    {p : Program Value} (bound : ctx.lookup key = some (.formula p)) {v : Value}
    (resolved : ctx.get key = .ok v) (stack : Stack Value) :
    execute (ctx.scopesTo ctx.size) p.code stack = .ok (.value v :: stack) := by
  have hvalue : p.evaluate ctx.scopes = .ok v := by
    rw [get, getWith, bound] at resolved
    exact resolved
  have halone : execute (ctx.scopesTo ctx.size) p.code [] = .ok [.value v] := by
    rw [← execute_eq_of_evaluate hvalue]
    exact execute_scopesTo_of_bound acyclic bound (.formula p) (Nat.le_refl _) (Nat.le_succ _) []
  exact execute_append_stack halone stack

theorem execute_eq_nested {ctx : Context} (acyclic : ctx.Acyclic)
    {code : List (Instruction Value)} (resolves : ctx.ResolvesNamed code) (stack : Stack Value) :
    execute ctx.scopes code stack = execute [ctx.valueResolver] code stack := by
  refine execute_congr (fun r hr stack => ?_) stack
  rw [scopes_eq_cons, execute_reference, execute_reference]
  by_cases spliced : ∃ p, ctx.resolver (ctx.scopesTo ctx.size) r = .ok (.splice p)
  · obtain ⟨p, hp⟩ := spliced
    obtain ⟨hbound, hpoint⟩ := lookup_of_resolver_splice hp
    obtain ⟨v, hv⟩ := resolves r hr hpoint
    have hvalue : ctx.valueResolver r = .ok (.value v) := by
      simp only [valueResolver, hpoint, hv]
      rfl
    simp only [hp, hvalue]
    exact execute_spliced acyclic hbound hv stack
  · have unspliced : ∀ p, ctx.resolver (ctx.scopesTo ctx.size) r ≠ .ok (.splice p) :=
      fun p hp => spliced ⟨p, hp⟩
    have hsame := resolver_eq_valueResolver acyclic unspliced
    rw [hsame]
    cases hv : ctx.valueResolver r with
    | error e => rfl
    | ok m =>
      cases m with
      | value v => rfl
      | splice p => exact absurd (hsame.trans hv) (unspliced p)

end Context

/-- The value of a program if every key that it names is evaluated on its own. -/
def Program.evaluateNested (ctx : Context) (p : Program Value) : Outcome Value :=
  p.evaluate [ctx.valueResolver]

/-- Splicing agrees with nested evaluation. -/
theorem evaluate_eq_evaluateNested {ctx : Context} (acyclic : ctx.Acyclic) (p : Program Value)
    (resolves : ctx.ResolvesNamed p.code) : p.evaluate ctx.scopes = p.evaluateNested ctx := by
  simp only [Program.evaluateNested, evaluate_eq_execute,
    Context.execute_eq_nested acyclic resolves]

namespace Sample

def chain : Context where
  entries :=
    [ ("a", .formula ⟨[.term (.integer 1)], "1"⟩),
      ("b", .formula ⟨[.reference ⟨"@", "a", ""⟩, .comment "one"], "@a[one]"⟩) ]
  sorted := by decide

theorem chain_names {key : String} {b : Binding} {p : Program Value} {r : Reference}
    (bound : chain.lookup key = some b) (held : b.Holds p) (mem : .reference r ∈ p.code) :
    key = "b" ∧ r.key = "a" := by
  simp only [chain, Context.lookup, Context.find?] at bound
  split at bound
  · cases bound
    cases held
    simp at mem
  · split at bound
    · rename_i hkey
      cases bound
      cases held
      obtain rfl : r = ⟨"@", "a", ""⟩ := by simpa using mem
      exact ⟨hkey, rfl⟩
    · cases bound

theorem chain_acyclic : chain.Acyclic := by
  refine Context.acyclic_of_lt (fun key => if key = "b" then 1 else 0) ?_
  rintro key target ⟨b, p, hb, hp, r, hr, ht⟩
  obtain ⟨rfl, hname⟩ := chain_names hb hp hr
  rw [hname] at ht
  obtain rfl : target = "a" := List.mem_singleton.1 ht
  decide

theorem chain_resolvesNamed :
    chain.ResolvesNamed [.reference ⟨"@", "b", ""⟩, .comment "two"] := by
  intro r hr _
  obtain rfl : r = ⟨"@", "b", ""⟩ := by simpa using hr
  refine ⟨.named (.integer 1) "one", ?_⟩
  change Program.evaluate _ _ = _
  rw [evaluate_eq_execute, execute_cons_splice rfl, execute_cons_goOn rfl, execute_nil]
  simp only [ok_bind]
  rw [execute_cons_goOn rfl, execute_nil]
  rfl

end Sample

open Sample in
theorem evaluate_eq_evaluateNested_chain :
    (Program.mk [.reference ⟨"@", "b", ""⟩, .comment "two"] "@b[two]").evaluate chain.scopes =
      (Program.mk [.reference ⟨"@", "b", ""⟩, .comment "two"] "@b[two]").evaluateNested chain :=
  evaluate_eq_evaluateNested chain_acyclic _ chain_resolvesNamed

end FormulaEngine
