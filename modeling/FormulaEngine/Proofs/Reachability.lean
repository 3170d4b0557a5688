import FormulaEngine.Proofs.Compiling
import FormulaEngine.Proofs.Splicing
import Mathlib.Data.List.Sort
import Mathlib.Data.String.Basic

/-!
# Reachable keys

Which keys of two contexts a binding can read, directly or through the formulas of other keys. What
the binding comes to depends on these keys alone: neither what else is bound nor the order in which
a context lists its keys leaks into a value or an error.
-/
namespace FormulaEngine

namespace Context

theorem sorted_keys (ctx : Context) : ctx.keys.Pairwise (· < ·) := List.pairwise_map.2 ctx.sorted

/-- Those keys of any listing that a pattern covers, put in order, are the ones that match. -/
theorem mergeSort_filter_eq_keysMatching {ctx : Context} {listing : List String}
    (listed : listing.Perm ctx.keys) {pattern : String}
    (starred : Wildcard.isPattern pattern.toList = true) :
    ((listing.filter fun key => Wildcard.accepts pattern.toList key.toList).mergeSort
      fun a b => decide (a ≤ b)) = ctx.keysMatching pattern := by
  simp only [keysMatching, starred, if_true]
  refine List.Perm.eq_of_pairwise' (r := (· ≤ ·)) (List.pairwise_mergeSort' _ _)
    ((ctx.sorted_keys.filter _).imp le_of_lt) ?_
  exact (List.mergeSort_perm _ _).trans (listed.filter _)

theorem set_comm (ctx : Context) {e f : String × Binding} (distinct : e.1 ≠ f.1) :
    (ctx.set e.1 e.2).set f.1 f.2 = (ctx.set f.1 f.2).set e.1 e.2 := by
  refine eq_of_lookup_eq fun key => ?_
  simp only [lookup_set]
  by_cases hf : key = f.1
  · have he : key ≠ e.1 := fun he => distinct (he.symm.trans hf)
    simp only [if_pos hf, if_neg he]
  · simp only [if_neg hf]

/-- A context keeps no trace of the order in which entries of different keys were put into it. So
what is said below about any two contexts needs no hypothesis on how they were made: contexts that
differ in that order only are the same, and bind everything alike. -/
theorem ofEntries_eq_of_perm {entries entries' : List (String × Binding)}
    (distinct : (entries.map Prod.fst).Nodup) (perm : entries.Perm entries') :
    ofEntries entries = ofEntries entries' := by
  refine perm.foldl_eq' (fun e he f hf ctx => ?_) empty
  by_cases hkey : e.1 = f.1
  · rw [List.inj_on_of_nodup_map distinct he hf hkey]
  · exact set_comm ctx hkey

theorem keysMatching_congr {ctx other : Context} {pattern : String}
    (starred : Wildcard.isPattern pattern.toList = true)
    (same : ∀ key, key ∈ ctx.keysMatching pattern ∨ key ∈ other.keysMatching pattern →
      ctx.lookup key = other.lookup key) :
    ctx.keysMatching pattern = other.keysMatching pattern := by
  simp only [keysMatching, starred, if_true] at same ⊢
  refine List.Pairwise.eq_of_mem_iff (r := (· < ·)) (ctx.sorted_keys.filter _)
    (other.sorted_keys.filter _) fun key => ?_
  constructor
  · intro hkey
    obtain ⟨hbound, haccepts⟩ := List.mem_filter.1 hkey
    rw [mem_keys, same key (.inl hkey), ← mem_keys] at hbound
    exact List.mem_filter.2 ⟨hbound, haccepts⟩
  · intro hkey
    obtain ⟨hbound, haccepts⟩ := List.mem_filter.1 hkey
    rw [mem_keys, ← same key (.inr hkey), ← mem_keys] at hbound
    exact List.mem_filter.2 ⟨hbound, haccepts⟩

theorem eq_of_mem_keysMatching {ctx : Context} {key target : String}
    (point : ¬Wildcard.isPattern key.toList = true) (h : target ∈ ctx.keysMatching key) :
    target = key := by
  rw [keysMatching_of_point ctx point] at h
  split at h
  · exact List.mem_singleton.1 h
  · cases h

end Context

namespace Binding

/-- A binding reads a key: one of its formulas names the key, or has a pattern that covers it in one
of the two contexts. -/
inductive Reads (ctx other : Context) (b : Binding) : String → Prop where
  | named {p : Program Value} {r : Reference} (held : b.Holds p) (mem : .reference r ∈ p.code)
      (point : ¬Wildcard.isPattern r.key.toList = true) : Reads ctx other b r.key
  | covered {p : Program Value} {r : Reference} {key : String} (held : b.Holds p)
      (mem : .reference r ∈ p.code) (starred : Wildcard.isPattern r.key.toList = true)
      (matching : key ∈ ctx.keysMatching r.key ∨ key ∈ other.keysMatching r.key) :
      Reads ctx other b key

/-- A binding reaches the keys that it reads and those that what is bound to them reads. -/
inductive Reaches (ctx other : Context) (b : Binding) : String → Prop where
  | direct {key : String} (read : b.Reads ctx other key) : Reaches ctx other b key
  | through {key target : String} {c : Binding} (reached : Reaches ctx other b key)
      (bound : ctx.lookup key = some c ∨ other.lookup key = some c)
      (read : c.Reads ctx other target) : Reaches ctx other b target

variable {ctx other : Context} {b c : Binding} {p : Program Value} {key target : String}

theorem Reads.of_mem_keysMatching {r : Reference} (held : b.Holds p) (mem : .reference r ∈ p.code)
    (matching : key ∈ ctx.keysMatching r.key ∨ key ∈ other.keysMatching r.key) :
    b.Reads ctx other key := by
  by_cases starred : Wildcard.isPattern r.key.toList = true
  · exact .covered held mem starred matching
  · obtain rfl : key = r.key := matching.elim (Context.eq_of_mem_keysMatching starred)
      (Context.eq_of_mem_keysMatching starred)
    exact .named held mem starred

theorem Reaches.trans (reached : b.Reaches ctx other key)
    (bound : ctx.lookup key = some c ∨ other.lookup key = some c)
    (next : c.Reaches ctx other target) : b.Reaches ctx other target := by
  induction next with
  | direct read => exact .through reached bound read
  | through _ bound' read ih => exact .through ih bound' read

theorem Reaches.mem_of_closed {keys : List String}
    (start : ∀ key, b.Reads ctx other key → key ∈ keys)
    (closed : ∀ key ∈ keys, ∀ c, ctx.lookup key = some c ∨ other.lookup key = some c →
      ∀ target, c.Reads ctx other target → target ∈ keys)
    (reached : b.Reaches ctx other key) : key ∈ keys := by
  induction reached with
  | direct read => exact start _ read
  | through _ bound read ih => exact closed _ ih _ bound _ read

end Binding

namespace Context

variable {ctx other : Context} {b : Binding} {p : Program Value}

/-- The formulas of a binding do the same in two contexts where the keys that it reaches are bound
alike, however deep the nesting may be. -/
theorem execute_scopesTo_eq_of_reaches
    (same : ∀ key, b.Reaches ctx other key → ctx.lookup key = other.lookup key) (held : b.Holds p)
    (depth : Nat) (stack : Stack Value) :
    execute (ctx.scopesTo depth) p.code stack = execute (other.scopesTo depth) p.code stack := by
  induction depth generalizing b p stack with
  | zero => rfl
  | succ depth ih =>
    refine execute_scopesTo_succ ?matching ?bound ?deeper stack
    case matching =>
      intro r hr
      by_cases starred : Wildcard.isPattern r.key.toList = true
      · exact keysMatching_congr starred fun key hkey =>
          same key (.direct (.covered held hr starred hkey))
      · have hlookup := same r.key (.direct (.named held hr starred))
        rw [keysMatching_of_point ctx starred, keysMatching_of_point other starred, contains,
          contains, hlookup]
    case bound =>
      rintro key ⟨r, hr, hkey⟩
      exact same key (.direct (.of_mem_keysMatching held hr (.inl hkey)))
    case deeper =>
      rintro key ⟨r, hr, hkey⟩ c q hc hq stack
      have reached : b.Reaches ctx other key :=
        .direct (.of_mem_keysMatching held hr (.inl hkey))
      exact ih (fun target next => same target (reached.trans (.inl hc) next)) hq stack

theorem resolve_eq_of_no_reference
    (closed : ∀ p, b.Holds p → ∀ r, .reference r ∉ p.code) : b.resolve ctx = b.resolve other :=
  b.resolveWith_congr fun p hp => execute_congr fun r hr => absurd hr (closed p hp r)

theorem resolve_eq_of_reaches (acyclic : ctx.Acyclic) (acyclic' : other.Acyclic)
    (same : ∀ key, b.Reaches ctx other key → ctx.lookup key = other.lookup key) :
    b.resolve ctx = b.resolve other := by
  refine b.resolveWith_congr fun p hp stack => ?_
  have deep : ctx.size < ctx.size + other.size + 1 := by omega
  have deep' : other.size < ctx.size + other.size + 1 := by omega
  calc execute ctx.scopes p.code stack
      = execute (ctx.scopesTo (ctx.size + other.size + 1)) p.code stack :=
        execute_scopesTo acyclic p.code (Nat.lt_succ_self _) deep stack
    _ = execute (other.scopesTo (ctx.size + other.size + 1)) p.code stack :=
        execute_scopesTo_eq_of_reaches same hp _ stack
    _ = execute other.scopes p.code stack :=
        execute_scopesTo acyclic' p.code deep' (Nat.lt_succ_self _) stack

end Context

/-- What a binding comes to depends only on the bindings that it can reach; in particular a formula
that refers to nothing gives the same in every context. -/
theorem resolve_depends_on_reached :
    (∀ (ctx other : Context) (b : Binding), ctx.Acyclic → other.Acyclic →
      (∀ key, b.Reaches ctx other key → ctx.lookup key = other.lookup key) →
      b.resolve ctx = b.resolve other) ∧
    ∀ (o : Formula.Options) (text : String),
      (∀ b p, Formula.parse o text = .ok b → b.Holds p → ∀ r, .reference r ∉ p.code) →
      ∀ ctx other, Formula.evaluate o ctx text = Formula.evaluate o other text := by
  refine ⟨fun ctx other b acyclic acyclic' same => ?_, fun o text closed ctx other => ?_⟩
  · exact Context.resolve_eq_of_reaches acyclic acyclic' same
  · unfold Formula.evaluate
    split
    · rfl
    · rename_i b hparse
      have hsame : b.resolve ctx = b.resolve other :=
        Context.resolve_eq_of_no_reference fun p => closed b p hparse
      rw [hsame]

namespace Sample

def collection : Binding :=
  .list
    [ .formula ⟨[.reference ⟨"@", "b", ""⟩], "@b"⟩,
      .formula ⟨[.reference ⟨"@", "a*", ""⟩], "@a*"⟩ ]

def longer : Context := chain.set "c" (.formula ⟨[.reference ⟨"@", "b", ""⟩], "@b"⟩)

theorem longer_acyclic : longer.Acyclic := by
  refine Context.acyclic_of_lt
    (fun key => if key = "c" then 2 else if key = "b" then 1 else 0) ?_
  rintro key target ⟨b, p, hb, hp, r, hr, ht⟩
  rw [longer, Context.lookup_set] at hb
  split at hb
  · rename_i hkey
    cases hb
    cases hp
    obtain rfl : r = ⟨"@", "b", ""⟩ := by simpa using hr
    obtain rfl : target = "b" := List.mem_singleton.1 ht
    simp [hkey]
  · obtain ⟨rfl, hname⟩ := chain_names hb hp hr
    rw [hname] at ht
    obtain rfl : target = "a" := List.mem_singleton.1 ht
    decide

theorem collection_reads {ctx other : Context} {key : String}
    (h : collection.Reads ctx other key)
    (matching : ctx.keysMatching "a*" = ["a"] ∧ other.keysMatching "a*" = ["a"]) :
    key ∈ ["a", "b"] := by
  have covers : ∀ {p r}, collection.Holds p → .reference r ∈ p.code →
      r.key = "b" ∨ r.key = "a*" := by
    rintro p r ⟨⟩ hr
    rename_i b hb hp
    rcases List.mem_pair.1 hb with rfl | rfl
    · cases hp
      exact .inl (by simp_all)
    · cases hp
      exact .inr (by simp_all)
  cases h with
  | named held mem point =>
    rcases covers held mem with hr | hr
    · simp [hr]
    · exact absurd (by rw [hr]; decide) point
  | covered held mem starred covered =>
    rcases covers held mem with hr | hr
    · rw [hr] at starred
      exact absurd starred (by decide)
    · rw [hr, matching.1, matching.2, or_self] at covered
      simp [List.mem_singleton.1 covered]

theorem chain_reads {key : String} {c : Binding} (bound : chain.lookup key = some c)
    {ctx other : Context} {target : String} (read : c.Reads ctx other target) :
    target ∈ ["a", "b"] := by
  cases read with
  | named held mem _ => simp [(chain_names bound held mem).2]
  | covered held mem starred _ =>
    rw [(chain_names bound held mem).2] at starred
    exact absurd starred (by decide)

theorem lookup_set_chain {key : String} (h : key ∈ ["a", "b"]) (b : Binding) :
    (chain.set "c" b).lookup key = chain.lookup key := by
  have hne : key ≠ "c" := by
    rintro rfl
    exact absurd h (by decide)
  rw [Context.lookup_set, if_neg hne]

theorem lookup_longer {key : String} (h : collection.Reaches chain longer key) :
    chain.lookup key = longer.lookup key := by
  have hkey : key ∈ ["a", "b"] := by
    refine h.mem_of_closed (fun _ hread => collection_reads hread (by decide)) ?_
    intro key hkey c bound target hread
    rw [longer, lookup_set_chain hkey, or_self] at bound
    exact chain_reads bound hread
  exact (lookup_set_chain hkey _).symm

def isClosed : Binding → Bool
  | .formula p => p.code.all fun i => match i with
    | .reference _ => false
    | _ => true
  | _ => false

end Sample

open Sample in
theorem resolve_depends_on_reached_longer :
    collection.resolve chain = collection.resolve longer ∧
      Formula.evaluate {} chain "1+2" = Formula.evaluate {} longer "1+2" := by
  refine ⟨resolve_depends_on_reached.1 chain longer collection chain_acyclic longer_acyclic
    (fun _ => lookup_longer), resolve_depends_on_reached.2 {} "1+2" (fun b p hb hp r hr => ?_) _ _⟩
  have hparse : (Formula.parse {} "1+2").toOption.all isClosed = true := by
    rw [Formula.parse_eq_compileAs]
    decide +kernel
  rw [hb] at hparse
  cases hp with
  | formula p => exact absurd (List.all_eq_true.1 hparse _ hr) Bool.false_ne_true
  | item _ _ => cases hparse

end FormulaEngine
