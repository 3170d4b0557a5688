import FormulaEngine.Context.Resolve
import FormulaEngine.Proofs.Execution
import Mathlib.Data.Finset.Card
import Mathlib.Logic.Relation

/-!
# References between keys

The graph of the keys of a context and of the keys that their formulas refer to. Where it has no
cycle, formulas are nested less deeply than there are keys, so that what they come to does not
depend on how deep the nesting may be.
-/
namespace FormulaEngine

/-- A formula that the value of a binding is computed from. -/
inductive Binding.Holds : Binding → Program Value → Prop where
  | formula (p : Program Value) : Holds (.formula p) p
  | item {items : List Binding} {b : Binding} {p : Program Value} (member : b ∈ items)
      (held : Holds b p) : Holds (.list items) p

namespace Context

/-- The bound key is the one that a reference in the code names, or one that its pattern covers. -/
def RefersTo (ctx : Context) (code : List (Instruction Value)) (target : String) : Prop :=
  ∃ r : Reference, .reference r ∈ code ∧ target ∈ ctx.keysMatching r.key

def Refers (ctx : Context) (key target : String) : Prop :=
  ∃ b p, ctx.lookup key = some b ∧ b.Holds p ∧ ctx.RefersTo p.code target

/-- No key refers to itself, be it through other keys. -/
def Acyclic (ctx : Context) : Prop := ∀ key, ¬Relation.TransGen ctx.Refers key key

theorem acyclic_of_lt {ctx : Context} (measure : String → Nat)
    (decreases : ∀ {key target}, ctx.Refers key target → measure target < measure key) :
    ctx.Acyclic := by
  have hpath : ∀ {key target}, Relation.TransGen ctx.Refers key target →
      measure target < measure key := by
    intro key target path
    induction path with
    | single h => exact decreases h
    | tail _ h ih => exact lt_trans (decreases h) ih
  intro key cycle
  exact lt_irrefl _ (hpath cycle)

theorem mem_keys {ctx : Context} {key : String} :
    key ∈ ctx.keys ↔ ∃ b, ctx.lookup key = some b := by
  simp only [keys, lookup]
  induction ctx.entries with
  | nil => simp [find?]
  | cons e entries ih =>
    obtain ⟨k, b⟩ := e
    by_cases hk : key = k
    · simp [find?, hk]
    · simp [find?, hk, ← ih]

theorem mem_keys_of_mem_keysMatching {ctx : Context} {pattern key : String}
    (h : key ∈ ctx.keysMatching pattern) : key ∈ ctx.keys := by
  unfold keysMatching at h
  split at h
  · exact (List.mem_filter.1 h).1
  · split at h
    · rename_i hc
      rw [List.mem_singleton.1 h]
      exact mem_keys.2 (Option.isSome_iff_exists.1 hc)
    · cases h

theorem mem_keysMatching_self {ctx : Context} {key : String} {b : Binding}
    (point : Wildcard.isPattern key.toList = false) (bound : ctx.lookup key = some b) :
    key ∈ ctx.keysMatching key := by
  simp [keysMatching, point, contains, bound]

open Classical in
/-- The number of bound keys that a key refers to, be it through other keys. -/
noncomputable def rank (ctx : Context) (key : String) : Nat :=
  (ctx.keys.toFinset.filter fun k => Relation.TransGen ctx.Refers key k).card

theorem rank_lt_of_refers {ctx : Context} {key target : String}
    (acyclic : ¬Relation.TransGen ctx.Refers target target) (h : ctx.Refers key target) :
    ctx.rank target < ctx.rank key := by
  classical
  have bound : target ∈ ctx.keys := by
    obtain ⟨_, _, _, _, r, _, hr⟩ := h
    exact mem_keys_of_mem_keysMatching hr
  apply Finset.card_lt_card
  refine Finset.ssubset_iff_subset_ne.2 ⟨?_, ?_⟩
  · intro k hk
    simp only [Finset.mem_filter] at hk ⊢
    exact ⟨hk.1, .head h hk.2⟩
  · intro heq
    have hmem : target ∈ ctx.keys.toFinset.filter fun k => Relation.TransGen ctx.Refers key k := by
      simp only [Finset.mem_filter, List.mem_toFinset]
      exact ⟨bound, .single h⟩
    rw [← heq, Finset.mem_filter] at hmem
    exact acyclic hmem.2

theorem rank_lt_size {ctx : Context} {key : String}
    (acyclic : ¬Relation.TransGen ctx.Refers key key) (bound : key ∈ ctx.keys) :
    ctx.rank key < ctx.size := by
  classical
  have hcard : ctx.keys.toFinset.card ≤ ctx.size := by
    simpa [keys, size] using List.toFinset_card_le ctx.keys
  refine lt_of_lt_of_le (Finset.card_lt_card ?_) hcard
  refine Finset.filter_ssubset.2 ⟨key, List.mem_toFinset.2 bound, acyclic⟩

end Context

mutual

theorem Binding.resolveWith_congr {scopes scopes' : List (Resolver Value)} (b : Binding)
    (same : ∀ p, b.Holds p → ∀ stack, execute scopes p.code stack = execute scopes' p.code stack) :
    b.resolveWith scopes = b.resolveWith scopes' := by
  cases b with
  | empty => rfl
  | value v => rfl
  | formula p => simp only [resolveWith, evaluate_eq_execute, same p (.formula p)]
  | list items =>
    simp only [resolveWith, Binding.resolveAll_congr items fun b hb p hp => same p (.item hb hp)]

theorem Binding.resolveAll_congr {scopes scopes' : List (Resolver Value)} (items : List Binding)
    (same : ∀ b ∈ items, ∀ p, b.Holds p →
      ∀ stack, execute scopes p.code stack = execute scopes' p.code stack) :
    resolveAll scopes items = resolveAll scopes' items := by
  cases items with
  | nil => rfl
  | cons b items =>
    simp only [resolveAll, b.resolveWith_congr (same b (by simp)),
      Binding.resolveAll_congr items fun c hc => same c (by simp [hc])]

end

namespace Context

theorem getEach_congr {ctx other : Context} {scopes scopes' : List (Resolver Value)}
    {keys : List String} (same : ∀ key ∈ keys, ctx.getWith scopes key = other.getWith scopes' key) :
    ctx.getEach scopes keys = other.getEach scopes' keys := by
  induction keys with
  | nil => rfl
  | cons key keys ih =>
    simp only [getEach, same key (by simp), ih fun k hk => same k (by simp [hk])]

theorem keysMatching_of_point (ctx : Context) {key : String}
    (point : ¬Wildcard.isPattern key.toList = true) :
    ctx.keysMatching key = if ctx.contains key then [key] else [] := by
  simp only [keysMatching, if_neg point]

theorem resolver_congr {ctx other : Context} {deeper deeper' : List (Resolver Value)}
    {r : Reference} (matching : ctx.keysMatching r.key = other.keysMatching r.key)
    (bound : ∀ key ∈ ctx.keysMatching r.key, ctx.lookup key = other.lookup key)
    (same : ∀ key ∈ ctx.keysMatching r.key, ∀ b, ctx.lookup key = some b →
      b.resolveWith deeper = b.resolveWith deeper') :
    ctx.resolver deeper r = other.resolver deeper' r := by
  unfold resolver
  split
  · have hsearch : ctx.searchWith deeper r.key = other.searchWith deeper' r.key := by
      rw [searchWith, searchWith, ← matching]
      refine getEach_congr fun key hkey => ?_
      rw [getWith, getWith, ← bound key hkey]
      split
      · rename_i b hb
        exact same key hkey b hb
      · rfl
    rw [hsearch]
  · rename_i hpoint
    cases hb : ctx.lookup r.key with
    | none =>
      rw [keysMatching_of_point _ hpoint, keysMatching_of_point _ hpoint] at matching
      cases hother : other.lookup r.key with
      | none => rfl
      | some b => simp [contains, hb, hother] at matching
    | some b =>
      have hmem := mem_keysMatching_self (by simpa using hpoint) hb
      rw [← bound r.key hmem, hb]
      cases b with
      | formula p => rfl
      | empty => rfl
      | value v => rfl
      | list items => simp only [same r.key hmem _ hb]

theorem lookup_of_resolver_splice {ctx : Context} {deeper : List (Resolver Value)} {r : Reference}
    {p : Program Value} (h : ctx.resolver deeper r = .ok (.splice p)) :
    ctx.lookup r.key = some (.formula p) ∧ Wildcard.isPattern r.key.toList = false := by
  unfold resolver at h
  split at h
  · split at h <;> cases h
  · rename_i hpoint
    split at h
    · rename_i q hq
      simp only [Except.ok.injEq, Meaning.splice.injEq] at h
      subst h
      exact ⟨hq, by simpa using hpoint⟩
    · split at h <;> cases h
    · cases h

theorem scopes_eq_cons (ctx : Context) :
    ctx.scopes = ctx.resolver (ctx.scopesTo ctx.size) :: ctx.scopesTo ctx.size := rfl

theorem execute_scopesTo_succ {ctx other : Context} {depth depth' : Nat}
    {code : List (Instruction Value)}
    (matching : ∀ r, .reference r ∈ code → ctx.keysMatching r.key = other.keysMatching r.key)
    (bound : ∀ key, ctx.RefersTo code key → ctx.lookup key = other.lookup key)
    (same : ∀ key, ctx.RefersTo code key → ∀ b p, ctx.lookup key = some b → b.Holds p →
      ∀ stack, execute (ctx.scopesTo depth) p.code stack =
        execute (other.scopesTo depth') p.code stack) (stack : Stack Value) :
    execute (ctx.scopesTo (depth + 1)) code stack =
      execute (other.scopesTo (depth' + 1)) code stack := by
  refine execute_congr (fun r hr stack => ?_) stack
  have hresolve : ctx.resolver (ctx.scopesTo depth) r =
      other.resolver (other.scopesTo depth') r := by
    refine resolver_congr (matching r hr) (fun key hkey => bound key ⟨r, hr, hkey⟩) ?_
    intro key hkey b hb
    exact b.resolveWith_congr fun p hp => same key ⟨r, hr, hkey⟩ b p hb hp
  simp only [scopesTo, execute_reference, ← hresolve]
  cases hr' : ctx.resolver (ctx.scopesTo depth) r with
  | error e => rfl
  | ok m =>
    cases m with
    | value v => rfl
    | splice p =>
      obtain ⟨hb, hpoint⟩ := lookup_of_resolver_splice hr'
      exact same r.key ⟨r, hr, mem_keysMatching_self hpoint hb⟩ _ p hb (.formula p) stack

/-- The formulas of a key are nested no deeper than its rank. -/
theorem execute_scopesTo_of_rank_lt {ctx : Context} (acyclic : ctx.Acyclic) {key : String}
    {b : Binding} {p : Program Value} (bound : ctx.lookup key = some b) (held : b.Holds p)
    {depth depth' : Nat} (deep : ctx.rank key < depth) (deep' : ctx.rank key < depth')
    (stack : Stack Value) :
    execute (ctx.scopesTo depth) p.code stack = execute (ctx.scopesTo depth') p.code stack := by
  induction hn : ctx.rank key using Nat.strong_induction_on
    generalizing key b p depth depth' stack with
  | _ n ih =>
    obtain ⟨depth, rfl⟩ : ∃ d, depth = d + 1 := ⟨depth - 1, by omega⟩
    obtain ⟨depth', rfl⟩ : ∃ d, depth' = d + 1 := ⟨depth' - 1, by omega⟩
    refine execute_scopesTo_succ (fun _ _ => rfl) (fun _ _ => rfl)
      (fun target htarget c q hc hq stack => ?_) stack
    have hlt := rank_lt_of_refers (acyclic target) ⟨b, p, bound, held, htarget⟩
    exact ih _ (hn ▸ hlt) hc hq (by omega) (by omega) stack rfl

/-- Formulas of bound keys are nested less deeply than there are keys. -/
theorem execute_scopesTo_of_bound {ctx : Context} (acyclic : ctx.Acyclic) {key : String}
    {b : Binding} {p : Program Value} (bound : ctx.lookup key = some b) (held : b.Holds p)
    {depth depth' : Nat} (deep : ctx.size ≤ depth) (deep' : ctx.size ≤ depth')
    (stack : Stack Value) :
    execute (ctx.scopesTo depth) p.code stack = execute (ctx.scopesTo depth') p.code stack := by
  have hrank := rank_lt_size (acyclic key) (mem_keys.2 ⟨b, bound⟩)
  exact execute_scopesTo_of_rank_lt acyclic bound held (by omega) (by omega) stack

theorem resolveWith_scopesTo_of_bound {ctx : Context} (acyclic : ctx.Acyclic) {key : String}
    {b : Binding} (bound : ctx.lookup key = some b) {depth depth' : Nat}
    (deep : ctx.size ≤ depth) (deep' : ctx.size ≤ depth') :
    b.resolveWith (ctx.scopesTo depth) = b.resolveWith (ctx.scopesTo depth') :=
  b.resolveWith_congr fun _ hp => execute_scopesTo_of_bound acyclic bound hp deep deep'

/-- No code reaches the bound on nesting: a deeper one changes nothing. -/
theorem execute_scopesTo {ctx : Context} (acyclic : ctx.Acyclic) (code : List (Instruction Value))
    {depth depth' : Nat} (deep : ctx.size < depth) (deep' : ctx.size < depth')
    (stack : Stack Value) :
    execute (ctx.scopesTo depth) code stack = execute (ctx.scopesTo depth') code stack := by
  obtain ⟨depth, rfl⟩ : ∃ d, depth = d + 1 := ⟨depth - 1, by omega⟩
  obtain ⟨depth', rfl⟩ : ∃ d, depth' = d + 1 := ⟨depth' - 1, by omega⟩
  exact execute_scopesTo_succ (fun _ _ => rfl) (fun _ _ => rfl) (fun _ _ _ _ hb hp =>
    execute_scopesTo_of_bound acyclic hb hp (by omega) (by omega)) stack

end Context

end FormulaEngine
