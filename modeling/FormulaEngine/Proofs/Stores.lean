import FormulaEngine.Context.Update
import FormulaEngine.Proofs.Reachability
import Mathlib.Logic.Function.Basic

/-!
# Stores of bindings

A context that is changed in place and a history of versions both stand for a map from keys to
bindings. What a change does to that map is said here without entries and without their order, and
every run of changes is followed in both of them.
-/
namespace FormulaEngine

abbrev Bindings := String → Option Binding

namespace Bindings

/-- What of several entries for a key the last one says. -/
def ofEntries (entries : List (String × Binding)) : Bindings := fun key =>
  (entries.reverse.find? fun e => e.1 == key).map Prod.snd

/-- The elements that an item is put behind: a binding that is no list counts as the only one. -/
def elements : Option Binding → List Binding
  | some (.list items) => items
  | some b => [b]
  | none => []

def move (m : Bindings) (key target : String) : Bindings :=
  match m key with
  | none => m
  | some b =>
    if key = target then m
    else Function.update (Function.update m key none) target (some b)

def change (m : Bindings) : Update → Bindings
  | .set key b => Function.update m key (some b)
  | .remove key => Function.update m key none
  | .rename key target => m.move key target
  | .push key item => Function.update m key (some (.list (elements (m key) ++ [item])))

def answer (m : Bindings) : Update → Reply
  | .set key _ => .previous (m key)
  | .remove key => .previous (m key)
  | .rename key _ => .renamed (m key).isSome
  | .push _ _ => .nothing

theorem ofEntries_concat (entries : List (String × Binding)) (e : String × Binding) :
    ofEntries (entries ++ [e]) = Function.update (ofEntries entries) e.1 (some e.2) := by
  funext key
  simp only [ofEntries, List.reverse_append, List.reverse_singleton, List.singleton_append,
    List.find?_cons, Function.update_apply]
  by_cases hkey : key = e.1
  · simp [hkey]
  · have hne : (e.1 == key) = false := beq_false_of_ne fun h => hkey h.symm
    simp [hkey, hne]

theorem pushed_eq_list (item : Binding) (found : Option Binding) :
    Context.pushed item found = .list (elements found ++ [item]) := by
  cases found with
  | none => rfl
  | some b => cases b <;> rfl

end Bindings

def Update.touched : Update → List String
  | .set key _ => [key]
  | .remove key => [key]
  | .rename key target => [key, target]
  | .push key _ => [key]

namespace Context

/-- The context finds what the map says, and lists each bound key once. -/
structure Represents (ctx : Context) (m : Bindings) : Prop where
  lookup_eq : ∀ key, ctx.lookup key = m key
  keys_nodup : ctx.keys.Nodup
  mem_keys_iff : ∀ key, key ∈ ctx.keys ↔ (m key).isSome
  size_eq : ctx.size = ctx.keys.length

theorem represents_lookup (ctx : Context) : ctx.Represents ctx.lookup where
  lookup_eq _ := rfl
  keys_nodup := ctx.sorted_keys.imp String.ne_of_lt
  mem_keys_iff _ := mem_keys.trans Option.isSome_iff_exists.symm
  size_eq := (List.length_map _).symm

theorem represents_iff {ctx : Context} {m : Bindings} : ctx.Represents m ↔ ctx.lookup = m := by
  constructor
  · intro h
    exact funext h.lookup_eq
  · rintro rfl
    exact ctx.represents_lookup

theorem lookup_set_eq_update (ctx : Context) (key : String) (b : Binding) :
    (ctx.set key b).lookup = Function.update ctx.lookup key (some b) := by
  funext k
  rw [lookup_set, Function.update_apply]

theorem lookup_remove_eq_update (ctx : Context) (key : String) :
    (ctx.remove key).lookup = Function.update ctx.lookup key none := by
  funext k
  rw [lookup_remove, Function.update_apply]

theorem lookup_ofEntries (entries : List (String × Binding)) :
    (ofEntries entries).lookup = Bindings.ofEntries entries := by
  induction entries using List.reverseRecOn with
  | nil => rfl
  | append_singleton entries e ih =>
    have hlast : ofEntries (entries ++ [e]) = (ofEntries entries).set e.1 e.2 := by
      simp [ofEntries, List.foldl_append]
    rw [hlast, lookup_set_eq_update, ih, Bindings.ofEntries_concat]

/-- Taking an entry out and putting it back under its own key leaves the map as it is. -/
theorem lookup_rename_eq_move (ctx : Context) (key target : String) :
    (ctx.rename key target).lookup = Bindings.move ctx.lookup key target := by
  unfold rename Bindings.move
  cases hfound : ctx.lookup key with
  | none => rfl
  | some b =>
    simp only
    rw [lookup_set_eq_update, lookup_remove_eq_update]
    split
    · rename_i hself
      subst hself
      rw [Function.update_idem, ← hfound, Function.update_eq_self]
    · rfl

theorem lookup_apply (ctx : Context) (u : Update) :
    (u.apply ctx).lookup = Bindings.change ctx.lookup u := by
  cases u with
  | set key b => exact ctx.lookup_set_eq_update key b
  | remove key => exact ctx.lookup_remove_eq_update key
  | rename key target => exact ctx.lookup_rename_eq_move key target
  | push key item =>
    funext k
    rw [Update.apply, lookup_push, Bindings.pushed_eq_list, Bindings.change,
      Function.update_apply]

theorem reply_eq_answer (ctx : Context) (u : Update) :
    u.reply ctx = Bindings.answer ctx.lookup u := by
  cases u <;> rfl

/-- The step: what is represented stays represented. -/
theorem Represents.apply {ctx : Context} {m : Bindings} (h : ctx.Represents m) (u : Update) :
    (u.apply ctx).Represents (m.change u) := by
  rw [represents_iff] at h ⊢
  rw [lookup_apply, h]

theorem Represents.reply {ctx : Context} {m : Bindings} (h : ctx.Represents m) (u : Update) :
    u.reply ctx = m.answer u := by
  rw [reply_eq_answer, represents_iff.1 h]

theorem represents_ofEntries (entries : List (String × Binding)) :
    (ofEntries entries).Represents (.ofEntries entries) :=
  represents_iff.2 (lookup_ofEntries entries)

theorem Represents.foldl_apply {ctx : Context} {m : Bindings} (h : ctx.Represents m)
    (us : List Update) : (us.foldl Update.apply ctx).Represents (us.foldl Bindings.change m) := by
  induction us generalizing ctx m with
  | nil => exact h
  | cons u us ih => exact ih (h.apply u)

end Context

namespace Bindings

theorem change_of_not_mem_touched (m : Bindings) {u : Update} {key : String}
    (other : key ∉ u.touched) : m.change u key = m key := by
  cases u with
  | set k b => exact Function.update_of_ne (List.ne_of_not_mem_cons other) _ _
  | remove k => exact Function.update_of_ne (List.ne_of_not_mem_cons other) _ _
  | push k item => exact Function.update_of_ne (List.ne_of_not_mem_cons other) _ _
  | rename k target =>
    have hk : key ≠ k := List.ne_of_not_mem_cons other
    have htarget : key ≠ target := List.ne_of_not_mem_cons (List.not_mem_of_not_mem_cons other)
    simp only [change, move]
    cases m k with
    | none => rfl
    | some b =>
      by_cases hself : k = target
      · simp only [if_pos hself]
      · simp only [if_neg hself]
        rw [Function.update_of_ne htarget, Function.update_of_ne hk]

end Bindings

namespace History

/-- The history consists of the versions that the changes lead through, and the last is in use. -/
structure Records (h : History) (ctx : Context) (us : List Update) : Prop where
  current_eq : h.current = us.length
  length_later : h.later.length = us.length
  version?_eq : ∀ n ≤ us.length, h.version? n = some ((us.take n).foldl Update.apply ctx)

theorem records_start (ctx : Context) : (start ctx).Records ctx [] where
  current_eq := rfl
  length_later := rfl
  version?_eq n hn := by
    obtain rfl : n = 0 := Nat.le_zero.1 hn
    rfl

theorem Records.now_eq {h : History} {ctx : Context} {us : List Update} (r : h.Records ctx us) :
    h.now = us.foldl Update.apply ctx := by
  have hlast := r.version?_eq us.length le_rfl
  rw [List.take_length] at hlast
  rw [now, r.current_eq, hlast, Option.getD_some]

theorem Records.update {h : History} {ctx : Context} {us : List Update} (r : h.Records ctx us)
    (u : Update) : (h.update u).Records ctx (us ++ [u]) where
  current_eq := by
    rw [List.length_append, List.length_singleton, ← r.length_later]
    rfl
  length_later := by
    rw [List.length_append, List.length_singleton, ← r.length_later]
    exact List.length_append
  version?_eq n hn := by
    rw [List.length_append, List.length_singleton] at hn
    rcases Nat.le_or_eq_of_le_succ hn with hearlier | rfl
    · rw [List.take_append_of_le_length hearlier]
      exact version?_update u (r.version?_eq n hearlier)
    · have hwhole : (us ++ [u]).take (us.length + 1) = us ++ [u] := List.take_of_length_le (by simp)
      rw [hwhole, List.foldl_append, List.foldl_cons, List.foldl_nil, ← r.now_eq,
        ← r.length_later]
      exact h.version?_update_last u

theorem records_foldl_update (ctx : Context) (us : List Update) :
    (us.foldl History.update (start ctx)).Records ctx us := by
  induction us using List.reverseRecOn with
  | nil => exact records_start ctx
  | append_singleton us u ih =>
    rw [List.foldl_append]
    exact ih.update u

end History

open Context in
/-- A context changed in place and the version of a history that is in use stand for one map,
whatever changes are made; replies are the map's, and the former versions stay what they were. -/
theorem stores_represent_run (entries : List (String × Binding)) (us : List Update) :
    let m := us.foldl Bindings.change (.ofEntries entries)
    let ctx := us.foldl Update.apply (ofEntries entries)
    let h := us.foldl History.update (.start (ofEntries entries))
    ctx.Represents m ∧ h.now.Represents m ∧
      (∀ u : Update, u.reply ctx = m.answer u ∧
        ∀ key ∉ u.touched, (u.apply ctx).lookup key = ctx.lookup key) ∧
      ∀ n ≤ us.length, ∃ version, h.version? n = some version ∧
        version.Represents ((us.take n).foldl Bindings.change (.ofEntries entries)) := by
  intro m ctx h
  have hrun (us : List Update) : (us.foldl Update.apply (ofEntries entries)).Represents
      (us.foldl Bindings.change (.ofEntries entries)) :=
    (represents_ofEntries entries).foldl_apply us
  have hrecords : h.Records (ofEntries entries) us := History.records_foldl_update _ us
  refine ⟨hrun us, ?_, ?_, ?_⟩
  · rw [hrecords.now_eq]
    exact hrun us
  · intro u
    refine ⟨(hrun us).reply u, ?_⟩
    intro key other
    rw [lookup_apply, Bindings.change_of_not_mem_touched _ other]
  · intro n hn
    exact ⟨_, hrecords.version?_eq n hn, hrun (us.take n)⟩

end FormulaEngine
