import FormulaEngine.Proofs.Reachability

/-!
# Termination

The evaluator in single steps and without a bound on how deep formulas may be nested: a list is
worked off element by element, and a formula that is evaluated on its own waits for nothing but the
demand for its value. Where none of the keys that can be reached refers to itself, the evaluator
finishes, and with what the bounded resolvers come to.
-/
namespace FormulaEngine

inductive Demand where
  /-- A program, of which these pieces of code are left, goes on with the value on its stack. -/
  | program (frames : List (List (Instruction Value))) (stack : Stack Value)
  /-- The value is the next element of a list, after these and before the others. -/
  | element (done : List Value) (rest : List Binding)

inductive Evaluation where
  | resolving (b : Binding) (demands : List Demand)
  | collecting (done : List Value) (rest : List Binding) (demands : List Demand)
  | running (frames : List (List (Instruction Value))) (stack : Stack Value)
      (demands : List Demand)
  | returning (v : Value) (demands : List Demand)
  | finished (outcome : Outcome Value)

/-- What has to be done for a reference: to run a program in its place, or to get a value. -/
inductive Target where
  | splice (p : Program Value)
  | resolve (b : Binding)

namespace Context

def bindingsMatching (ctx : Context) (pattern : String) : List Binding :=
  (ctx.keysMatching pattern).filterMap ctx.lookup

def target (ctx : Context) (r : Reference) : Target :=
  if Wildcard.isPattern r.key.toList then .resolve (.list (ctx.bindingsMatching r.key))
  else
    match ctx.lookup r.key with
    | some (.formula p) => .splice p
    | some b => .resolve b
    | none => .resolve .empty

end Context

namespace Evaluation

def below (code : List (Instruction Value)) (frames : List (List (Instruction Value))) :
    List (List (Instruction Value)) :=
  if code.isEmpty then frames else code :: frames

/-- An evaluation that has come to a stack, with the frames that are left to run on it. -/
def resume (frames : List (List (Instruction Value))) (demands : List Demand) :
    Outcome (Stack Value) → Evaluation
  | .ok stack => running frames stack demands
  | .error e => finished (.error e)

def answer (demands : List Demand) : Outcome Value → Evaluation
  | .ok v => returning v demands
  | .error e => finished (.error e)

/-- One step of the evaluator; a finished evaluation stays as it is. -/
def step (ctx : Context) : Evaluation → Evaluation
  | resolving .empty demands => returning .null demands
  | resolving (.value v) demands => returning v demands
  | resolving (.formula p) demands => running [p.code] [] demands
  | resolving (.list items) demands => collecting [] items demands
  | collecting done [] demands => returning (.list done) demands
  | collecting done (b :: rest) demands => resolving b (.element done rest :: demands)
  | running [] stack demands => answer demands stack.result
  | running ([] :: frames) stack demands => running frames stack demands
  | running ((.reference r :: code) :: frames) stack demands =>
    match ctx.target r with
    | .splice p => running (p.code :: below code frames) stack demands
    | .resolve b => resolving b (.program (code :: frames) stack :: demands)
  | running ((i :: code) :: frames) stack demands =>
    match i.effect [] stack with
    | .error e => finished (.error e)
    | .ok (.goOn stack) => running (code :: frames) stack demands
    | .ok (.splice p _) => running (p.code :: below code frames) stack demands
  | returning v (.program frames stack :: demands) => running frames (.value v :: stack) demands
  | returning v (.element done rest :: demands) => collecting (done ++ [v]) rest demands
  | returning v [] => finished (.ok v)
  | finished outcome => finished outcome

def Leads (ctx : Context) (e e' : Evaluation) : Prop := ∃ n, (step ctx)^[n] e = e'

namespace Leads

variable {ctx : Context} {e e' e'' : Evaluation}

theorem refl (e : Evaluation) : Leads ctx e e := ⟨0, rfl⟩

theorem head (h : Leads ctx (step ctx e) e') : Leads ctx e e' := by
  obtain ⟨n, hn⟩ := h
  exact ⟨n + 1, hn⟩

theorem trans (h : Leads ctx e e') (h' : Leads ctx e' e'') : Leads ctx e e'' := by
  obtain ⟨n, rfl⟩ := h
  obtain ⟨m, rfl⟩ := h'
  exact ⟨m + n, Function.iterate_add_apply _ m n e⟩

theorem of_resume {frames frames' : List (List (Instruction Value))} {demands : List Demand}
    {outcome : Outcome (Stack Value)} {next : Stack Value → Outcome (Stack Value)}
    (h : Leads ctx e (resume frames demands outcome))
    (goOn : ∀ stack, Leads ctx (running frames stack demands)
      (resume frames' demands (next stack))) :
    Leads ctx e (resume frames' demands (outcome >>= next)) := by
  cases outcome with
  | error e => exact h
  | ok stack => exact h.trans (goOn stack)

end Leads

end Evaluation

namespace Binding

theorem resolveWith_list (scopes : List (Resolver Value)) (items : List Binding) :
    (Binding.list items).resolveWith scopes =
      resolveAll scopes items >>= fun vs => .ok (.list vs) := by
  rw [resolveWith]
  cases resolveAll scopes items <;> rfl

theorem resolveAll_cons (scopes : List (Resolver Value)) (b : Binding) (items : List Binding) :
    resolveAll scopes (b :: items) =
      b.resolveWith scopes >>= fun v => resolveAll scopes items >>= fun vs => .ok (v :: vs) := by
  rw [resolveAll]
  cases b.resolveWith scopes with
  | error e => rfl
  | ok v => cases resolveAll scopes items <;> rfl

end Binding

section Resolution

variable {ctx : Context} {scopes : List (Resolver Value)}

open Evaluation

/-- Steps work the code off as the resolvers do. -/
def Executes (ctx : Context) (scopes : List (Resolver Value)) (code : List (Instruction Value)) :
    Prop :=
  ∀ frames stack demands, Leads ctx (running (code :: frames) stack demands)
    (resume frames demands (execute scopes code stack))

theorem leads_resolve_formula {p : Program Value} (runs : Executes ctx scopes p.code)
    (demands : List Demand) :
    Leads ctx (resolving (.formula p) demands) (answer demands (p.evaluate scopes)) := by
  rw [evaluate_eq_execute]
  have hrun : Leads ctx (resolving (.formula p) demands)
      (resume [] demands (execute scopes p.code [])) := .head (runs [] [] demands)
  cases hstack : execute scopes p.code [] with
  | error e =>
    rw [hstack] at hrun
    exact hrun
  | ok stack =>
    rw [hstack] at hrun
    exact hrun.trans (.head (.refl _))

mutual

theorem leads_resolve (b : Binding) (runs : ∀ p, b.Holds p → Executes ctx scopes p.code)
    (demands : List Demand) :
    Leads ctx (resolving b demands) (answer demands (b.resolveWith scopes)) := by
  cases b with
  | empty => exact .head (.refl _)
  | value v => exact .head (.refl _)
  | formula p => exact leads_resolve_formula (runs p (.formula p)) demands
  | list items =>
    rw [Binding.resolveWith_list]
    exact .head (leads_collect items (fun b hb p hp => runs p (.item hb hp)) [] demands)

theorem leads_collect (items : List Binding)
    (runs : ∀ b ∈ items, ∀ p, b.Holds p → Executes ctx scopes p.code) (done : List Value)
    (demands : List Demand) :
    Leads ctx (collecting done items demands) (answer demands
      (Binding.resolveAll scopes items >>= fun vs => .ok (.list (done ++ vs)))) := by
  cases items with
  | nil =>
    have hdone : Leads ctx (collecting done [] demands) (returning (.list done) demands) :=
      .head (.refl _)
    simpa only [Binding.resolveAll, ok_bind, List.append_nil, answer] using hdone
  | cons b items =>
    have hfirst : Leads ctx (collecting done (b :: items) demands)
        (answer (.element done items :: demands) (b.resolveWith scopes)) :=
      .head (leads_resolve b (runs b (by simp)) _)
    rw [Binding.resolveAll_cons]
    cases hb : b.resolveWith scopes with
    | error e =>
      rw [hb] at hfirst
      exact hfirst
    | ok v =>
      rw [hb] at hfirst
      have hrest := leads_collect items (fun c hc => runs c (by simp [hc])) (done ++ [v]) demands
      refine hfirst.trans (.head (hrest.trans ?_))
      cases Binding.resolveAll scopes items with
      | error e => exact .refl _
      | ok vs =>
        simp only [ok_bind, List.append_assoc, List.singleton_append]
        exact .refl _

end

end Resolution

namespace Context

theorem mem_bindingsMatching {ctx : Context} {pattern : String} {b : Binding} :
    b ∈ ctx.bindingsMatching pattern ↔
      ∃ key ∈ ctx.keysMatching pattern, ctx.lookup key = some b := List.mem_filterMap

theorem resolveAll_filterMap_lookup {ctx : Context} (scopes : List (Resolver Value))
    {keys : List String} (bound : ∀ key ∈ keys, key ∈ ctx.keys) :
    Binding.resolveAll scopes (keys.filterMap ctx.lookup) =
      (ctx.getEach scopes keys).map fun found => found.map Prod.snd := by
  induction keys with
  | nil => rfl
  | cons key keys ih =>
    obtain ⟨b, hb⟩ := mem_keys.1 (bound key (by simp))
    have hvalue : ctx.getWith scopes key = b.resolveWith scopes := by rw [getWith, hb]
    rw [List.filterMap_cons_some hb, Binding.resolveAll, getEach, hvalue,
      ih fun k hk => bound k (by simp [hk])]
    cases b.resolveWith scopes with
    | error e => rfl
    | ok v => cases ctx.getEach scopes keys <;> rfl

theorem resolver_eq_target (ctx : Context) (deeper : List (Resolver Value)) (r : Reference) :
    ctx.resolver deeper r =
      match ctx.target r with
      | .splice p => .ok (.splice p)
      | .resolve b => (b.resolveWith deeper).map .value := by
  by_cases starred : Wildcard.isPattern r.key.toList = true
  · have hbound : ∀ key ∈ ctx.keysMatching r.key, key ∈ ctx.keys :=
      fun _ hkey => mem_keys_of_mem_keysMatching hkey
    have hvalues := resolveAll_filterMap_lookup deeper hbound
    simp only [resolver, target, if_pos starred, Binding.resolveWith_list, bindingsMatching,
      hvalues, searchWith]
    cases ctx.getEach deeper (ctx.keysMatching r.key) <;> rfl
  · simp only [resolver, target, if_neg starred]
    cases ctx.lookup r.key with
    | none => rfl
    | some b =>
      cases b with
      | formula p => rfl
      | empty => rfl
      | value v => rfl
      | list items => cases h : (Binding.list items).resolveWith deeper <;> simp only [h] <;> rfl

theorem execute_target (ctx : Context) (depth : Nat) (r : Reference) (stack : Stack Value) :
    execute (ctx.scopesTo (depth + 1)) [.reference r] stack =
      match ctx.target r with
      | .splice p => execute (ctx.scopesTo depth) p.code stack
      | .resolve b => b.resolveWith (ctx.scopesTo depth) >>= fun v => .ok (.value v :: stack) := by
  rw [scopesTo, execute_reference, resolver_eq_target]
  cases ctx.target r with
  | splice p => rfl
  | resolve b => cases h : b.resolveWith (ctx.scopesTo depth) <;> simp only [h] <;> rfl

theorem holds_of_target {ctx : Context} {r : Reference} {b : Binding} {p : Program Value}
    (h : ctx.target r = .resolve b) (held : b.Holds p) :
    ∃ key ∈ ctx.keysMatching r.key, ∃ c, ctx.lookup key = some c ∧ c.Holds p := by
  unfold target at h
  split at h
  · cases h
    cases held with
    | item member held =>
      obtain ⟨key, hkey, hlookup⟩ := mem_bindingsMatching.1 member
      exact ⟨key, hkey, _, hlookup, held⟩
  · rename_i hpoint
    have hself : ∀ {c}, ctx.lookup r.key = some c → r.key ∈ ctx.keysMatching r.key :=
      fun hc => mem_keysMatching_self (by simpa using hpoint) hc
    split at h
    · cases h
    · rename_i hc
      cases h
      exact ⟨r.key, hself hc, _, hc, held⟩
    · cases h
      cases held

theorem lookup_of_target_splice {ctx : Context} {r : Reference} {p : Program Value}
    (h : ctx.target r = .splice p) :
    r.key ∈ ctx.keysMatching r.key ∧ ctx.lookup r.key = some (.formula p) := by
  unfold target at h
  split at h
  · cases h
  · rename_i hpoint
    split at h
    · rename_i hc
      cases h
      exact ⟨mem_keysMatching_self (by simpa using hpoint) hc, hc⟩
    · cases h
    · cases h

/-- Formulas in the code are nested at most so many deep. -/
def NestsWithin (ctx : Context) : (depth : Nat) → List (Instruction Value) → Prop
  | 0, code => ∀ r, .reference r ∉ code
  | depth + 1, code => ∀ key, ctx.RefersTo code key → ∀ b p, ctx.lookup key = some b →
    b.Holds p → ctx.NestsWithin depth p.code

theorem NestsWithin.tail {ctx : Context} {depth : Nat} {i : Instruction Value}
    {code : List (Instruction Value)} (h : ctx.NestsWithin depth (i :: code)) :
    ctx.NestsWithin depth code := by
  cases depth with
  | zero => exact fun r hr => h r (by simp [hr])
  | succ depth =>
    rintro key ⟨r, hr, hkey⟩
    exact h key ⟨r, by simp [hr], hkey⟩

end Context

open Evaluation

section Runs

variable {ctx : Context} {depth : Nat} {code : List (Instruction Value)}
  {frames : List (List (Instruction Value))} {demands : List Demand}

theorem leads_below {outcome : Stack Value → Outcome (Stack Value)}
    (rest : ∀ stack, Leads ctx (running (code :: frames) stack demands)
      (resume frames demands (outcome stack)))
    (done : code = [] → ∀ stack, outcome stack = .ok stack) (stack : Stack Value) :
    Leads ctx (running (below code frames) stack demands)
      (resume frames demands (outcome stack)) := by
  cases code with
  | nil =>
    rw [done rfl]
    exact .refl _
  | cons i code => exact rest stack

theorem leads_instruction {i : Instruction Value} (plain : ∀ r, i ≠ .reference r)
    (scopes : List (Resolver Value)) (stack : Stack Value)
    (rest : ∀ stack, Leads ctx (running (code :: frames) stack demands)
      (resume frames demands (execute scopes code stack))) :
    Leads ctx (running ((i :: code) :: frames) stack demands)
      (resume frames demands (execute scopes (i :: code) stack)) := by
  have hscopes : i.effect scopes stack = i.effect [] stack := by
    cases i with
    | reference r => exact absurd rfl (plain r)
    | _ => rfl
  have hstep : step ctx (running ((i :: code) :: frames) stack demands) =
      match i.effect [] stack with
      | .error e => finished (.error e)
      | .ok (.goOn stack) => running (code :: frames) stack demands
      | .ok (.splice p _) => running (p.code :: below code frames) stack demands := by
    cases i with
    | reference r => exact absurd rfl (plain r)
    | _ => rfl
  refine .head ?_
  rw [hstep]
  cases heffect : i.effect [] stack with
  | error e =>
    rw [execute_cons_error (hscopes.trans heffect)]
    exact .refl _
  | ok effect =>
    cases effect with
    | goOn stack' =>
      rw [execute_cons_goOn (hscopes.trans heffect)]
      exact rest stack'
    | splice p deeper =>
      obtain ⟨r, _, hr, _⟩ := Instruction.eq_reference_of_effect_splice heffect
      exact absurd hr (plain r)

theorem leads_reference {r : Reference}
    (spliced : ∀ p, ctx.target r = .splice p → Executes ctx (ctx.scopesTo depth) p.code)
    (resolved : ∀ b, ctx.target r = .resolve b → ∀ p, b.Holds p →
      Executes ctx (ctx.scopesTo depth) p.code) (stack : Stack Value)
    (rest : ∀ stack, Leads ctx (running (code :: frames) stack demands)
      (resume frames demands (execute (ctx.scopesTo (depth + 1)) code stack))) :
    Leads ctx (running ((.reference r :: code) :: frames) stack demands) (resume frames demands
      (execute (ctx.scopesTo (depth + 1)) (.reference r :: code) stack)) := by
  rw [execute_cons, Context.execute_target]
  refine .head ?_
  simp only [step]
  cases htarget : ctx.target r with
  | splice p =>
    refine .of_resume (spliced p htarget (below code frames) stack demands) (leads_below rest ?_)
    rintro rfl stack
    exact execute_nil _ _
  | resolve b =>
    dsimp only
    have hvalue := leads_resolve b (resolved b htarget) (.program (code :: frames) stack :: demands)
    cases hb : b.resolveWith (ctx.scopesTo depth) with
    | error e =>
      rw [hb] at hvalue
      exact hvalue
    | ok v =>
      rw [hb] at hvalue
      exact hvalue.trans (.head (rest _))

end Runs

/-- Steps work off the code of formulas that are not nested too deep for the resolvers. -/
theorem executes_of_nestsWithin {ctx : Context} {depth : Nat} {code : List (Instruction Value)}
    (nests : ctx.NestsWithin depth code) : Executes ctx (ctx.scopesTo depth) code := by
  induction depth generalizing code with
  | zero =>
    intro frames stack demands
    induction code generalizing stack with
    | nil => exact .head (execute_nil [] stack ▸ .refl _)
    | cons i code ih =>
      refine leads_instruction (fun r hr => nests r (by simp [hr])) _ stack fun stack => ?_
      exact ih nests.tail stack
  | succ depth deeper =>
    intro frames stack demands
    induction code generalizing stack with
    | nil => exact .head (execute_nil (ctx.scopesTo (depth + 1)) stack ▸ .refl _)
    | cons i code ih =>
      have rest := ih nests.tail
      by_cases hr : ∃ r, i = .reference r
      · obtain ⟨r, rfl⟩ := hr
        refine leads_reference (fun p hp => ?_) (fun b hb p hp => ?_) stack rest
        · obtain ⟨hkey, hlookup⟩ := Context.lookup_of_target_splice hp
          exact deeper (nests r.key ⟨r, by simp, hkey⟩ _ p hlookup (.formula p))
        · obtain ⟨key, hkey, c, hlookup, hheld⟩ := Context.holds_of_target hb hp
          exact deeper (nests key ⟨r, by simp, hkey⟩ c p hlookup hheld)
      · exact leads_instruction (fun r h => hr ⟨r, h⟩) _ stack rest

section Reachable

variable {ctx : Context} {b : Binding}

/-- No key that the binding reaches refers to itself, be it through other keys. -/
def Binding.ReachesNoCycle (ctx : Context) (b : Binding) : Prop :=
  ∀ key, b.Reaches ctx ctx key → ¬Relation.TransGen ctx.Refers key key

theorem Binding.Reaches.refers {key target : String} (reached : b.Reaches ctx ctx key)
    (h : ctx.Refers key target) : b.Reaches ctx ctx target := by
  obtain ⟨c, p, bound, held, r, hr, htarget⟩ := h
  exact .through reached (.inl bound) (.of_mem_keysMatching held hr (.inl htarget))

theorem reachesNoCycle_of_lt (measure : String → Nat)
    (decreases : ∀ {key target}, b.Reaches ctx ctx key → ctx.Refers key target →
      measure target < measure key) : b.ReachesNoCycle ctx := by
  have hpath : ∀ {key target}, b.Reaches ctx ctx key → Relation.TransGen ctx.Refers key target →
      b.Reaches ctx ctx target ∧ measure target < measure key := by
    intro key target reached path
    induction path with
    | single h => exact ⟨reached.refers h, decreases reached h⟩
    | tail _ h ih => exact ⟨ih.1.refers h, lt_trans (decreases ih.1 h) ih.2⟩
  intro key reached cycle
  exact lt_irrefl _ (hpath reached cycle).2

theorem nestsWithin_of_rank_lt (acyclic : b.ReachesNoCycle ctx) {key : String}
    (reached : b.Reaches ctx ctx key) {c : Binding} (bound : ctx.lookup key = some c)
    {p : Program Value} (held : c.Holds p) {depth : Nat} (deep : ctx.rank key < depth) :
    ctx.NestsWithin depth p.code := by
  induction depth generalizing key c p with
  | zero => exact absurd deep (Nat.not_lt_zero _)
  | succ depth ih =>
    intro target htarget d q hd hq
    have hrefers : ctx.Refers key target := ⟨c, p, bound, held, htarget⟩
    have hreached : b.Reaches ctx ctx target := reached.refers hrefers
    have hrank : ctx.rank target < ctx.rank key :=
      Context.rank_lt_of_refers (acyclic target hreached) hrefers
    exact ih hreached hd hq (by omega)

theorem nestsWithin_of_holds (acyclic : b.ReachesNoCycle ctx) {p : Program Value}
    (held : b.Holds p) : ctx.NestsWithin (ctx.size + 1) p.code := by
  rintro key ⟨r, hr, hkey⟩ c q hc hq
  have hreached : b.Reaches ctx ctx key := .direct (.of_mem_keysMatching held hr (.inl hkey))
  have hrank : ctx.rank key < ctx.size :=
    Context.rank_lt_size (acyclic key hreached) (Context.mem_keys_of_mem_keysMatching hkey)
  exact nestsWithin_of_rank_lt acyclic hreached hc hq hrank

end Reachable

/-- Resolution ends wherever no key that can be reached refers to itself: after finitely many steps
the evaluator, which nests formulas without a bound, is finished with the outcome. -/
theorem resolve_terminates (ctx : Context) (b : Binding)
    (acyclic : b.ReachesNoCycle ctx) :
    ∃ n, (Evaluation.step ctx)^[n] (.resolving b []) = .finished (b.resolve ctx) := by
  have hresolve : Leads ctx (resolving b []) (answer [] (b.resolve ctx)) :=
    leads_resolve b (fun p hp => executes_of_nestsWithin (nestsWithin_of_holds acyclic hp)) []
  refine hresolve.trans ?_
  cases b.resolve ctx with
  | error e => exact .refl _
  | ok v => exact .head (.refl _)

namespace Sample

def looped : Context := chain.set "c" (.formula ⟨[.reference ⟨"@", "c", ""⟩], "@c"⟩)

theorem mem_of_reaches_looped {key : String} (h : collection.Reaches looped looped key) :
    key ∈ ["a", "b"] := by
  refine h.mem_of_closed (fun _ hread => collection_reads hread (by decide)) ?_
  intro key hkey c bound target hread
  rw [looped, lookup_set_chain hkey, or_self] at bound
  exact chain_reads bound hread

theorem collection_reachesNoCycle : collection.ReachesNoCycle looped := by
  refine reachesNoCycle_of_lt (fun key => if key = "b" then 1 else 0) ?_
  rintro key target hreached ⟨b, p, hb, hp, r, hr, ht⟩
  rw [looped, lookup_set_chain (mem_of_reaches_looped hreached)] at hb
  obtain ⟨rfl, hname⟩ := chain_names hb hp hr
  rw [hname] at ht
  obtain rfl : target = "a" := List.mem_singleton.1 ht
  decide

end Sample

open Sample in
theorem resolve_terminates_looped :
    collection.ReachesNoCycle looped ∧
      ∃ n, (Evaluation.step looped)^[n] (.resolving collection []) =
        .finished (collection.resolve looped) :=
  ⟨collection_reachesNoCycle, resolve_terminates looped collection collection_reachesNoCycle⟩

/-- The evaluator itself has no bound: a formula that refers to itself is never finished. -/
theorem iterate_step_ne_finished {ctx : Context} {r : Reference} {text : String}
    (bound : ctx.lookup r.key = some (.formula ⟨[.reference r], text⟩))
    (point : Wildcard.isPattern r.key.toList = false) (n : Nat) (outcome : Outcome Value) :
    (Evaluation.step ctx)^[n] (.resolving (.formula ⟨[.reference r], text⟩) []) ≠
      .finished outcome := by
  have hround : Evaluation.step ctx (.running [[.reference r]] [] []) =
      .running [[.reference r]] [] [] := by
    simp only [step, Context.target, point, bound]
    rfl
  cases n with
  | zero => exact nofun
  | succ n =>
    rw [Function.iterate_succ_apply]
    change (Evaluation.step ctx)^[n] (.running [[.reference r]] [] []) ≠ _
    rw [Function.iterate_fixed hround]
    exact nofun

end FormulaEngine
