import FormulaEngine.Proofs.Globs
import FormulaEngine.Proofs.Stores

/-!
# Searches

A search for a pattern reads all bound keys that the pattern covers, each of them once and in their
order, and fails as the first one that cannot be read. It depends on what the keys are bound to, and
neither on how they came to be bound nor on the order in which a store lists them.
-/
namespace FormulaEngine

def Bindings.Selects (m : Bindings) (pattern key : String) : Prop :=
  (m key).isSome = true ∧ Wildcard.accepts pattern.toList key.toList = true

namespace Context

/-- What a search answers where a store lists the bound keys like this: those that the pattern
covers are put in order, and then they are read until one fails. -/
def searchListed (ctx : Context) (listing : List String) (pattern : String) :
    Outcome (List (String × Value)) :=
  ((listing.filter fun key => Wildcard.accepts pattern.toList key.toList).mergeSort
    fun a b => decide (a ≤ b)).mapM fun key => (ctx.get key).map fun v => (key, v)

section Reading

variable {ctx : Context} {scopes : List (Resolver Value)} {keys : List String}

theorem getEach_eq_mapM (ctx : Context) (scopes : List (Resolver Value)) (keys : List String) :
    ctx.getEach scopes keys =
      keys.mapM fun key => (ctx.getWith scopes key).map fun v => (key, v) := by
  induction keys with
  | nil => rfl
  | cons key keys ih =>
    rw [getEach, List.mapM_cons, ← ih]
    cases ctx.getWith scopes key with
    | error e => rfl
    | ok v => cases ctx.getEach scopes keys <;> rfl

theorem exists_getEach_eq_ok (resolve : ∀ key ∈ keys, ∃ v, ctx.getWith scopes key = .ok v) :
    ∃ found, ctx.getEach scopes keys = .ok found := by
  induction keys with
  | nil => exact ⟨[], rfl⟩
  | cons key keys ih =>
    obtain ⟨v, hv⟩ := resolve key (by simp)
    obtain ⟨found, hfound⟩ := ih fun k hk => resolve k (by simp [hk])
    exact ⟨(key, v) :: found, by rw [getEach, hv, hfound]⟩

theorem exists_getEach_eq_error (fails : ¬∀ key ∈ keys, ∃ v, ctx.getWith scopes key = .ok v) :
    ∃ before key after e, keys = before ++ key :: after ∧
      (∀ k ∈ before, ∃ v, ctx.getWith scopes k = .ok v) ∧
      ctx.getWith scopes key = .error e ∧ ctx.getEach scopes keys = .error e := by
  induction keys with
  | nil => exact absurd (by simp) fails
  | cons key keys ih =>
    cases hkey : ctx.getWith scopes key with
    | error e => exact ⟨[], key, keys, e, rfl, by simp, hkey, by rw [getEach, hkey]⟩
    | ok v =>
      have hrest : ¬∀ k ∈ keys, ∃ v, ctx.getWith scopes k = .ok v := by
        intro hall
        exact fails (by simpa [hkey] using hall)
      obtain ⟨before, k, after, e, rfl, hbefore, hk, hfails⟩ := ih hrest
      refine ⟨key :: before, k, after, e, rfl, ?_, hk, by rw [getEach, hkey, hfails]⟩
      simpa [hkey] using hbefore

end Reading

variable {ctx : Context} {m : Bindings} {pattern : String}

theorem Represents.mem_keysMatching_iff (represents : ctx.Represents m)
    (starred : Wildcard.isPattern pattern.toList = true) {key : String} :
    key ∈ ctx.keysMatching pattern ↔ m.Selects pattern key := by
  rw [keysMatching, if_pos starred, List.mem_filter, represents.mem_keys_iff]
  rfl

theorem sorted_keysMatching (ctx : Context)
    (starred : Wildcard.isPattern pattern.toList = true) :
    (ctx.keysMatching pattern).Pairwise (· < ·) := by
  rw [keysMatching, if_pos starred]
  exact ctx.sorted_keys.filter _

theorem search_of_resolves (represents : ctx.Represents m)
    (starred : Wildcard.isPattern pattern.toList = true)
    (resolve : ∀ key, m.Selects pattern key → ∃ v, ctx.get key = .ok v) :
    ∃ found, ctx.search pattern = .ok found ∧ (found.Pairwise fun a b => a.1 < b.1) ∧
      ∀ key v, (key, v) ∈ found ↔ m.Selects pattern key ∧ ctx.get key = .ok v := by
  obtain ⟨found, hfound⟩ := exists_getEach_eq_ok fun key hkey =>
    resolve key ((represents.mem_keysMatching_iff starred).1 hkey)
  obtain ⟨hkeys, hvalues⟩ := getEach_eq_ok hfound
  refine ⟨found, hfound, ?_, fun key v => ?_⟩
  · rw [← List.pairwise_map, hkeys]
    exact ctx.sorted_keysMatching starred
  · rw [← represents.mem_keysMatching_iff starred, ← hkeys]
    constructor
    · intro hmem
      exact ⟨List.mem_map_of_mem hmem, hvalues _ hmem⟩
    · rintro ⟨hmem, hv⟩
      obtain ⟨⟨_, w⟩, hw, rfl⟩ := List.mem_map.1 hmem
      cases hv.symm.trans (hvalues _ hw)
      exact hw

theorem search_of_fails (represents : ctx.Represents m)
    (starred : Wildcard.isPattern pattern.toList = true)
    (fails : ¬∀ key, m.Selects pattern key → ∃ v, ctx.get key = .ok v) :
    ∃ key e, m.Selects pattern key ∧ ctx.get key = .error e ∧
      (∀ k < key, m.Selects pattern k → ∃ v, ctx.get k = .ok v) ∧ ctx.search pattern = .error e := by
  have hmatching : ∀ {key}, key ∈ ctx.keysMatching pattern ↔ m.Selects pattern key :=
    represents.mem_keysMatching_iff starred
  obtain ⟨before, key, after, e, hkeys, hbefore, hkey, hsearch⟩ :=
    exists_getEach_eq_error fun hall => fails fun key hkey => hall key (hmatching.2 hkey)
  have hsorted := ctx.sorted_keysMatching starred
  rw [hkeys, List.pairwise_append, List.pairwise_cons] at hsorted
  refine ⟨key, e, hmatching.1 (by simp [hkeys]), hkey, fun k hless hk => ?_, hsearch⟩
  have hmem : k ∈ before ++ key :: after := hkeys ▸ hmatching.2 hk
  rcases List.mem_append.1 hmem with hmem | hmem
  · exact hbefore k hmem
  · rcases List.mem_cons.1 hmem with rfl | hmem
    · exact absurd hless (lt_irrefl _)
    · exact absurd (hsorted.2.1.1 k hmem) (not_lt_of_gt hless)

theorem searchListed_eq_search {listing : List String} (listed : listing.Perm ctx.keys)
    (starred : Wildcard.isPattern pattern.toList = true) :
    ctx.searchListed listing pattern = ctx.search pattern := by
  rw [searchListed, mergeSort_filter_eq_keysMatching listed starred, search, searchWith,
    getEach_eq_mapM]
  rfl

/-- A search that is made for a formula answers the same, however deep the formula is nested. -/
theorem searchWith_scopesTo (acyclic : ctx.Acyclic) {depth : Nat} (deep : ctx.size ≤ depth)
    (pattern : String) : ctx.searchWith (ctx.scopesTo depth) pattern = ctx.search pattern := by
  refine getEach_congr fun key _ => ?_
  rw [getWith, getWith]
  split
  · rename_i b hb
    exact resolveWith_scopesTo_of_bound acyclic hb deep (Nat.le_succ _)
  · rfl

end Context

open Context in
/-- After any run of changes, in a context changed in place and in the version of a history that is
in use, a search for a pattern answers with all bound keys that the pattern covers and with their
values, strictly increasing by code points, or else fails as the least of these keys that has no
value. Formulas get the same answer for the pattern, and neither the order in which the keys are
listed nor the changes that they were bound by matter. -/
theorem search_complete_ordered (entries : List (String × Binding)) (us : List Update)
    {pattern : String} (starred : Wildcard.isPattern pattern.toList = true) :
    let m := us.foldl Bindings.change (.ofEntries entries)
    ∀ ctx ∈ [us.foldl Update.apply (ofEntries entries),
        (us.foldl History.update (.start (ofEntries entries))).now],
      ((∀ key, m.Selects pattern key → ∃ v, ctx.get key = .ok v) →
        ∃ found, ctx.search pattern = .ok found ∧ (found.Pairwise fun a b => a.1 < b.1) ∧
          ∀ key v, (key, v) ∈ found ↔ m.Selects pattern key ∧ ctx.get key = .ok v) ∧
      ((¬∀ key, m.Selects pattern key → ∃ v, ctx.get key = .ok v) →
        ∃ key e, m.Selects pattern key ∧ ctx.get key = .error e ∧
          (∀ k < key, m.Selects pattern k → ∃ v, ctx.get k = .ok v) ∧
          ctx.search pattern = .error e) ∧
      (ctx.Acyclic → ∀ depth ≥ ctx.size,
        ctx.searchWith (ctx.scopesTo depth) pattern = ctx.search pattern) ∧
      (∀ listing : List String, listing.Perm ctx.keys →
        ctx.searchListed listing pattern = ctx.search pattern) ∧
      ∀ other : Context, other.Represents m → other.search pattern = ctx.search pattern := by
  intro m ctx hctx
  have hrun : (us.foldl Update.apply (ofEntries entries)).Represents m :=
    (represents_ofEntries entries).foldl_apply us
  have hstores : ctx = us.foldl Update.apply (ofEntries entries) := by
    rcases List.mem_pair.1 hctx with h | h
    · exact h
    · exact h.trans (History.records_foldl_update _ us).now_eq
  subst hstores
  refine ⟨search_of_resolves hrun starred, search_of_fails hrun starred, ?_, ?_, ?_⟩
  · intro acyclic depth deep
    exact searchWith_scopesTo acyclic deep pattern
  · intro listing listed
    exact searchListed_eq_search listed starred
  · intro other hother
    rw [eq_of_lookup_eq fun key => (hother.lookup_eq key).trans (hrun.lookup_eq key).symm]

def Sample.shuffled : List (String × Binding) :=
  [("b2", .value (.integer 2)), ("c", .value (.integer 0)), ("b1", .value (.integer 1))]

open Context in
/-- A key that is bound by its renaming comes first. -/
theorem search_complete_ordered_renamed :
    let ctx := [Update.rename "c" "b0"].foldl Update.apply (ofEntries Sample.shuffled)
    ∃ found, ctx.search "b*" = .ok found ∧ (found.Pairwise fun a b => a.1 < b.1) ∧
      ("b0", .integer 0) ∈ found ∧ ∀ v, ("c", v) ∉ found := by
  intro ctx
  have hentries : ctx.entries = [("b0", .value (.integer 0)), ("b1", .value (.integer 1)),
      ("b2", .value (.integer 2))] := rfl
  have hresolve (key : String) : ∃ v, ctx.get key = .ok v := by
    simp only [Context.get, getWith, lookup, hentries, find?]
    split_ifs <;> exact ⟨_, rfl⟩
  have hstarred : Wildcard.isPattern "b*".toList = true := by decide
  obtain ⟨found, hsearch, hsorted, hmem⟩ :=
    (search_complete_ordered Sample.shuffled [.rename "c" "b0"] hstarred ctx
      List.mem_cons_self).1 fun key _ => hresolve key
  refine ⟨found, hsearch, hsorted, (hmem _ _).2 ⟨⟨rfl, by decide⟩, rfl⟩, fun v hv => ?_⟩
  exact absurd ((hmem _ _).1 hv).1.2 (by decide)

end FormulaEngine
