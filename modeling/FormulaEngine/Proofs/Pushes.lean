import FormulaEngine.Formula.Flatten
import FormulaEngine.Proofs.Stores

/-!
# Pushes

Whatever a key of a context without cycles is bound to, its former elements keep their values when
items are pushed onto it. A former list is continued; a binding of any other kind becomes the first
element as a whole, even where its value is a list.
-/
namespace FormulaEngine

def Update.pushes (key : String) (items : List Binding) : List Update := items.map (push key)

namespace Bindings

/-- A run of pushes binds the key to one flat list. -/
theorem foldl_change_pushes (m : Bindings) (key : String) (item : Binding) (items : List Binding) :
    (Update.pushes key (item :: items)).foldl change m =
      Function.update m key (some (.list (elements (m key) ++ item :: items))) := by
  induction items generalizing m item with
  | nil => rfl
  | cons next items ih =>
    have hstep : (m.change (.push key item)) key = some (.list (elements (m key) ++ [item])) :=
      Function.update_self ..
    calc (Update.pushes key (item :: next :: items)).foldl change m
        = (Update.pushes key (next :: items)).foldl change (m.change (.push key item)) := rfl
      _ = Function.update (m.change (.push key item)) key
            (some (.list ((elements (m key) ++ [item]) ++ next :: items))) := by
          rw [ih, hstep, elements]
      _ = Function.update m key (some (.list (elements (m key) ++ item :: next :: items))) := by
          rw [change, Function.update_idem, List.append_assoc, List.singleton_append]

end Bindings

namespace Binding

variable {scopes : List (Resolver Value)}

theorem resolveAll_append {items items' : List Binding} {vs ws : List Value}
    (h : resolveAll scopes items = .ok vs) (h' : resolveAll scopes items' = .ok ws) :
    resolveAll scopes (items ++ items') = .ok (vs ++ ws) := by
  induction items generalizing vs with
  | nil =>
    cases h
    exact h'
  | cons b items ih =>
    rw [resolveAll] at h
    split at h
    · cases h
    · rename_i v hv
      split at h
      · cases h
      · rename_i rest hrest
        cases h
        simp only [List.cons_append, resolveAll, hv, ih hrest]

theorem resolveAll_of_forall₂ {items : List Binding} {ws : List Value}
    (h : List.Forall₂ (fun b w => b.resolveWith scopes = .ok w) items ws) :
    resolveAll scopes items = .ok ws := by
  induction h with
  | nil => rfl
  | cons hb _ ih => simp only [resolveAll, hb, ih]

theorem resolveAll_elements {b : Binding} {v : Value} (h : b.resolveWith scopes = .ok v) :
    (∀ items, b = .list items → resolveAll scopes (Bindings.elements (some b)) = .ok v.items) ∧
      ((∀ items, b ≠ .list items) →
        resolveAll scopes (Bindings.elements (some b)) = .ok [v]) := by
  constructor
  · rintro items rfl
    rw [resolveWith] at h
    split at h
    · cases h
    · rename_i vs hvs
      cases h
      exact hvs
  · intro single
    have helements : Bindings.elements (some b) = [b] := by
      cases b with
      | list items => exact absurd rfl (single items)
      | _ => rfl
    rw [helements]
    exact resolveAll_of_forall₂ (.cons h .nil)

end Binding

namespace Context

/-- The contexts differ in what a bound key is bound to, if in anything. -/
structure Rebinds (ctx other : Context) (key : String) : Prop where
  bound : (ctx.lookup key).isSome
  rebound : (other.lookup key).isSome
  frame : ∀ target ≠ key, ctx.lookup target = other.lookup target

variable {ctx other : Context} {key target : String} {b : Binding}

theorem Rebinds.isSome_lookup (h : ctx.Rebinds other key) (target : String) :
    (ctx.lookup target).isSome = (other.lookup target).isSome := by
  by_cases hkey : target = key
  · rw [hkey, h.bound, h.rebound]
  · rw [h.frame target hkey]

theorem Rebinds.keys_eq (h : ctx.Rebinds other key) : ctx.keys = other.keys := by
  refine List.Pairwise.eq_of_mem_iff (r := (· < ·)) ctx.sorted_keys other.sorted_keys fun k => ?_
  rw [ctx.represents_lookup.mem_keys_iff, other.represents_lookup.mem_keys_iff, h.isSome_lookup]

theorem Rebinds.size_eq (h : ctx.Rebinds other key) : ctx.size = other.size := by
  rw [ctx.represents_lookup.size_eq, other.represents_lookup.size_eq, h.keys_eq]

theorem Rebinds.keysMatching_eq (h : ctx.Rebinds other key) (pattern : String) :
    ctx.keysMatching pattern = other.keysMatching pattern := by
  have hcontains : ctx.contains pattern = other.contains pattern := h.isSome_lookup pattern
  simp only [keysMatching, h.keys_eq, hcontains]

theorem Rebinds.refers_of_reads (h : ctx.Rebinds other key) {k : String}
    (bound : ctx.lookup k = some b) (read : b.Reads ctx other target)
    (found : (ctx.lookup target).isSome) : ctx.Refers k target := by
  cases read with
  | @named p r held mem point =>
    obtain ⟨c, hc⟩ := Option.isSome_iff_exists.1 found
    exact ⟨b, p, bound, held, r, mem, mem_keysMatching_self (by simpa using point) hc⟩
  | @covered p r _ held mem starred matching =>
    rw [← h.keysMatching_eq, or_self] at matching
    exact ⟨b, p, bound, held, r, mem, matching⟩

/-- Of the bound keys, the former binding reaches only those that its key referred to before. -/
theorem Rebinds.refers_of_reaches (h : ctx.Rebinds other key) (acyclic : ctx.Acyclic)
    (bound : ctx.lookup key = some b) (reached : b.Reaches ctx other target)
    (found : (ctx.lookup target).isSome) : Relation.TransGen ctx.Refers key target := by
  induction reached with
  | direct read => exact .single (h.refers_of_reads bound read found)
  | @through k target c _ boundAt read ih =>
    have hpath : Relation.TransGen ctx.Refers key k := by
      refine ih ?_
      rcases boundAt with hc | hc
      · exact Option.isSome_iff_exists.2 ⟨c, hc⟩
      · exact h.isSome_lookup k ▸ Option.isSome_iff_exists.2 ⟨c, hc⟩
    -- without a cycle the path goes on through a key that is still bound as before
    have hne : k ≠ key := by
      rintro rfl
      exact acyclic k hpath
    have hc : ctx.lookup k = some c := by
      rwa [← h.frame k hne, or_self] at boundAt
    exact hpath.tail (h.refers_of_reads hc read found)

theorem Rebinds.lookup_eq_of_reaches (h : ctx.Rebinds other key) (acyclic : ctx.Acyclic)
    (bound : ctx.lookup key = some b) (reached : b.Reaches ctx other target) :
    ctx.lookup target = other.lookup target := by
  refine h.frame target ?_
  rintro rfl
  exact acyclic target (h.refers_of_reaches acyclic bound reached h.bound)

/-- The former binding keeps its value. The other context may well have cycles: both nest equally
deep and go through the same bindings. -/
theorem Rebinds.resolve_eq (h : ctx.Rebinds other key) (acyclic : ctx.Acyclic)
    (bound : ctx.lookup key = some b) : b.resolve ctx = b.resolve other := by
  refine b.resolveWith_congr fun p held stack => ?_
  rw [scopes, scopes, ← h.size_eq]
  exact execute_scopesTo_eq_of_reaches
    (fun _ reached => h.lookup_eq_of_reaches acyclic bound reached) held _ stack

theorem resolve_of_get {v : Value} (bound : ctx.lookup key = some b) (got : ctx.get key = .ok v) :
    b.resolve ctx = .ok v := by
  rw [get, getWith, bound] at got
  exact got

theorem rebinds_of_pushes {item : Binding} {items : List Binding} (bound : ctx.lookup key = some b)
    (pushed : other.lookup = (Update.pushes key (item :: items)).foldl Bindings.change ctx.lookup) :
    ctx.Rebinds other key where
  bound := Option.isSome_iff_exists.2 ⟨b, bound⟩
  rebound := by
    rw [pushed, Bindings.foldl_change_pushes, Function.update_self]
    rfl
  frame target hne := by
    rw [pushed, Bindings.foldl_change_pushes, Function.update_of_ne hne]

/-- The run: the items' values stand behind those of the former elements. -/
theorem get_pushes {item : Binding} {items : List Binding} {start ws : List Value}
    (bound : ctx.lookup key = some b)
    (pushed : other.lookup = (Update.pushes key (item :: items)).foldl Bindings.change ctx.lookup)
    (former : Binding.resolveAll other.scopes (Bindings.elements (some b)) = .ok start)
    (values : List.Forall₂ (fun b w => b.resolve other = .ok w) (item :: items) ws) :
    other.get key = .ok (.list (start ++ ws)) := by
  have hlist : other.lookup key = some (.list (Bindings.elements (some b) ++ item :: items)) := by
    rw [pushed, Bindings.foldl_change_pushes, Function.update_self, bound]
  have hall := Binding.resolveAll_append former (Binding.resolveAll_of_forall₂ values)
  simp only [get, getWith, hlist, Binding.resolveWith, hall]

end Context

theorem Value.items_ne_singleton {v : Value} (listed : v.isList = true) : v.items ≠ [v] := by
  intro h
  unfold isList at listed
  unfold items at h
  split at h
  · rename_i items hcontent
    have hlt := weightOf_content_lt hcontent
    rw [h] at hlt
    simp [weightOf] at hlt
  · rename_i hcontent
    simp [hcontent] at listed

open Context in
/-- Pushes onto a key, in place or in a history, put the items' values in their order behind the
elements of the list that is bound to the key. A binding that is no list becomes the first element
as a whole: if it stands for a list all the same, that list is nested and not continued. -/
theorem pushes_append_iff_list {ctx other : Context} {key : String} {b item : Binding}
    {items : List Binding} {v w : Value} {ws : List Value} (acyclic : ctx.Acyclic)
    (bound : ctx.lookup key = some b) (got : ctx.get key = .ok v)
    (after : other = (Update.pushes key (item :: items)).foldl Update.apply ctx ∨
      other = ((Update.pushes key (item :: items)).foldl History.update (.start ctx)).now)
    (values : List.Forall₂ (fun b w => b.resolve other = .ok w) (item :: items) (w :: ws)) :
    ((∀ bs, b ≠ .list bs) → other.get key = .ok (.list (v :: w :: ws))) ∧
      (v.isList = true →
        (other.get key = .ok (.list (v.items ++ w :: ws)) ↔ ∃ bs, b = .list bs)) := by
  have hother : other = (Update.pushes key (item :: items)).foldl Update.apply ctx := by
    rcases after with h | h
    · exact h
    · rw [h, (History.records_foldl_update ctx _).now_eq]
  have hpushed := hother ▸ (ctx.represents_lookup.foldl_apply (Update.pushes key (item :: items)))
  rw [represents_iff] at hpushed
  have hsame : b.resolve ctx = b.resolve other :=
    (rebinds_of_pushes bound hpushed).resolve_eq acyclic bound
  have hformer : b.resolve other = .ok v := hsame.symm.trans (resolve_of_get bound got)
  obtain ⟨continued, nested⟩ := Binding.resolveAll_elements hformer
  have hnested (single : ∀ bs, b ≠ .list bs) : other.get key = .ok (.list (v :: w :: ws)) :=
    get_pushes bound hpushed (nested single) values
  refine ⟨hnested, fun listed => ⟨fun flat => ?_, fun ⟨bs, hb⟩ => ?_⟩⟩
  · by_contra hsingle
    have hlists := (hnested (not_exists.1 hsingle)).symm.trans flat
    simp only [Except.ok.injEq, Value.list.injEq] at hlists
    have hitems : [v] = v.items := List.append_cancel_right hlists
    exact Value.items_ne_singleton listed hitems.symm
  · exact get_pushes bound hpushed (continued bs hb) values

namespace Sample

def single (b : Binding) : Context := Context.empty.set "k" b

theorem lookup_single (b : Binding) : (single b).lookup "k" = some b := by
  rw [single, Context.lookup_set, if_pos rfl]

theorem single_acyclic {b : Binding} (closed : ∀ p, ¬b.Holds p) : (single b).Acyclic := by
  refine Context.acyclic_of_lt (fun _ => 0) ?_
  rintro key target ⟨c, p, hc, hp, -⟩
  rw [single, Context.lookup_set] at hc
  split at hc
  · cases hc
    exact absurd hp (closed p)
  · cases hc

/-- The number one as the only element of a list, and as that of a value that is a list. -/
def listed : Binding := .list [.value (.integer 1)]

def static : Binding := .value (.list [.integer 1])

def twoThree : List Update :=
  Update.pushes "k" [.value (.integer 2), .value (.integer 3)]

theorem listed_closed (p : Program Value) : ¬listed.Holds p := by
  rintro ⟨⟩
  rename_i mem held
  obtain rfl := List.mem_singleton.1 mem
  cases held

theorem static_closed (p : Program Value) : ¬static.Holds p := by
  rintro ⟨⟩

end Sample

open Sample in
theorem pushes_append_iff_list_single :
    (twoThree.foldl Update.apply (single listed)).get "k" =
        .ok (.list [.integer 1, .integer 2, .integer 3]) ∧
      (twoThree.foldl History.update (.start (single static))).now.get "k" =
        .ok (.list [.list [.integer 1], .integer 2, .integer 3]) := by
  constructor
  · exact ((pushes_append_iff_list (single_acyclic listed_closed) (lookup_single _) rfl (.inl rfl)
      (.cons rfl (.cons rfl .nil))).2 rfl).2 ⟨_, rfl⟩
  · exact (pushes_append_iff_list (single_acyclic static_closed) (lookup_single _) rfl (.inr rfl)
      (.cons rfl (.cons rfl .nil))).1 fun _ h => Binding.noConfusion h

end FormulaEngine
