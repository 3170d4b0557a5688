import FormulaEngine.Proofs.Boundaries
import Mathlib.Data.List.Nodup

/-!
# Refused fragments

A fragment is refused when one of its alternatives can be empty or leads to a mark. As no two
children of a node make the same step, two alternatives lead to the same node only if they are
equal. The nodes that a refused fragment leaves behind have no mark, so that no walk records them.
-/
namespace FormulaEngine

variable {α τ : Type}

namespace Trie

variable {t t' t'' : Trie α}

/-- What every new node keeps is kept when a fragment is added. A node is new only if no child of
its parent makes its step. -/
theorem chain_induction {P : Trie α → Prop}
    (grow : ∀ {t : Trie α} {parent : Nat} {s : Step} (bound : parent < t.nodes.size),
      (∀ k ∈ t.childrenOf parent, t.stepOf? k ≠ some s) → P t → P (t.grow parent s bound))
    (f : Fragment) (tails : List Nat) (start : P t) : P (t.chain tails f).1 := by
  have child : ∀ {t : Trie α} (parent : Nat) (s : Step), P t → P (t.child parent s).1 := by
    intro t parent s h
    unfold Trie.child
    split
    · exact h
    · rename_i fresh
      split
      · rename_i bound
        exact grow bound (fun k hk => by simpa using List.find?_eq_none.1 fresh k hk) h
      · exact h
  have childEach : ∀ {t : Trie α} (s : Step) (tails : List Nat), P t →
      P (t.childEach s tails).1 := by
    intro t s tails h
    induction tails generalizing t with
    | nil => exact h
    | cons i tails ih => exact ih (child i s h)
  induction f generalizing t tails with
  | step s => exact childEach s tails start
  | empty => exact start
  | append first second ih₁ ih₂ => exact ih₂ _ (ih₁ tails start)
  | optional body ih => exact ih tails start

def Deterministic (t : Trie α) : Prop := ∀ i, ((t.childrenOf i).map t.stepOf?).Nodup

theorem deterministic_empty : (empty : Trie α).Deterministic := by
  intro i
  match i with
  | 0 => exact List.nodup_nil
  | i + 1 => exact List.nodup_nil

theorem Deterministic.grow (h : t.Deterministic) {parent : Nat} {s : Step}
    (bound : parent < t.nodes.size) (fresh : ∀ k ∈ t.childrenOf parent, t.stepOf? k ≠ some s) :
    (t.grow parent s bound).Deterministic := by
  intro i
  have old : (t.childrenOf i).map (t.grow parent s bound).stepOf? =
      (t.childrenOf i).map t.stepOf? :=
    List.map_congr_left fun k hk => by
      rw [stepOf?_grow, if_neg (Nat.ne_of_lt (lt_size_of_mem_childrenOf hk))]
  rw [childrenOf_grow]
  split
  · rename_i hparent
    rw [List.map_append, old, List.map_singleton, stepOf?_grow, if_pos rfl, ← List.concat_eq_append]
    refine (h i).concat fun hmem => ?_
    obtain ⟨k, hk, hstep⟩ := List.mem_map.1 hmem
    exact fresh k (hparent ▸ hk) hstep
  · rw [old]
    exact h i

theorem Deterministic.chain (h : t.Deterministic) (f : Fragment) (tails : List Nat) :
    (t.chain tails f).1.Deterministic :=
  chain_induction (fun bound fresh h => h.grow bound fresh) f tails h

theorem Deterministic.setMarks (h : t.Deterministic) (mark : α) (ends : List Nat) :
    (ends.foldl (fun t i => t.setMark i mark) t).Deterministic := by
  induction ends generalizing t with
  | nil => exact h
  | cons i ends ih =>
    refine ih fun k => ?_
    rw [childrenOf_setMark, List.map_congr_left fun j _ => stepOf?_setMark i mark j]
    exact h k

theorem Deterministic.path_unique (h : t.Deterministic) {i j j' : Nat} {steps : List Step}
    (path : t.Path i steps j) (path' : t.Path i steps j') : j = j' := by
  induction path with
  | here =>
    cases path'
    rfl
  | @down i k j node s steps found child step _ ih =>
    obtain _ | @⟨_, k', _, node', _, _, found', child', step', rest'⟩ := path'
    rw [found] at found'
    cases found'
    obtain rfl : k = k' := List.inj_on_of_nodup_map (h i) (mem_childrenOf.2 ⟨node, found, child⟩)
      (mem_childrenOf.2 ⟨node, found, child'⟩) (step.trans step'.symm)
    exact ih rest'

theorem Labelled.label_inj {label : Nat → List Step} (labelled : t.Labelled label)
    (h : t.Deterministic) {k k' : Nat} (bound : k < t.nodes.size) (bound' : k' < t.nodes.size)
    (same : label k = label k') : k = k' :=
  h.path_unique (labelled.path bound) (same ▸ labelled.path bound')

theorem Labelled.label_eq_nil {label : Nat → List Step} (labelled : t.Labelled label) {k : Nat}
    (bound : k < t.nodes.size) : label k = [] ↔ k = rootId := by
  constructor
  · intro h
    have path := labelled.path bound
    rw [h] at path
    cases path
    rfl
  · rintro rfl
    exact labelled.label_root

/-- The trie is part of another one, where new nodes have no mark and come after the old children
of their parents. -/
structure Within (t t' : Trie α) : Prop where
  size_le : t.nodes.size ≤ t'.nodes.size
  kept : ∀ {i node}, t.nodes.get? i = some node → ∃ later : List Nat,
    t'.nodes.get? i = some { node with children := node.children ++ later } ∧
      ∀ k ∈ later, t.nodes.size ≤ k
  unmarked : ∀ {k}, t.nodes.size ≤ k → t'.markOf? k = none

theorem markOf?_of_size_le {k : Nat} (h : t.nodes.size ≤ k) : t.markOf? k = none := by
  cases hmark : t.markOf? k with
  | none => rfl
  | some mark =>
    have := lt_size_of_markOf? hmark
    omega

theorem Within.refl (t : Trie α) : t.Within t where
  size_le := Nat.le_refl _
  kept found := ⟨[], by rw [List.append_nil, found], nofun⟩
  unmarked := markOf?_of_size_le

theorem Within.grow (h : t.Within t') {parent : Nat} (s : Step) (bound : parent < t'.nodes.size) :
    t.Within (t'.grow parent s bound) where
  size_le := by
    have : (t'.grow parent s bound).nodes.size = t'.nodes.size + 1 := by simp [Trie.grow]
    have := h.size_le
    omega
  kept := by
    intro i node found
    obtain ⟨later, hlater, hnew⟩ := h.kept found
    have hi := Nat.ne_of_lt (Arena.lt_size_of_get? hlater)
    by_cases hparent : i = parent
    · refine ⟨later ++ [t'.nodes.size], ?_, ?_⟩
      · rw [get?_grow, if_neg hi, if_pos hparent, hlater]
        simp [TrieNode.addChild]
      · intro k hk
        rcases List.mem_append.1 hk with hk | hk
        · exact hnew k hk
        · rw [List.mem_singleton.1 hk]
          exact h.size_le
    · exact ⟨later, by rw [get?_grow, if_neg hi, if_neg hparent, hlater], hnew⟩
  unmarked hk := (markOf?_grow s bound _).trans (h.unmarked hk)

theorem Within.chain (t : Trie α) (f : Fragment) (tails : List Nat) :
    t.Within (t.chain tails f).1 :=
  chain_induction (fun bound _ h => h.grow _ bound) f tails (.refl t)

theorem walk_of_get? {i : Nat} {node : TrieNode α} (found : t.nodes.get? i = some node) (c : Cursor)
    (taken : Nat) :
    t.walk i c taken =
      match node.step.advance c with
      | .blocked => []
      | .reached n =>
        (node.children.flatMap fun k => t.walk k (c.advance n) (taken + n)) ++
          node.completed i (taken + n)
      | .exhausted n => node.completed i (taken + n) := by
  rw [walk]
  split
  · rename_i h
    rw [found] at h
    cases h
  · rename_i node' h
    rw [found] at h
    cases h
    cases node.step.advance c <;> simp

theorem walk_eq_nil {n : Nat} (unmarked : ∀ k, n ≤ k → t.markOf? k = none) {i : Nat} (h : n ≤ i)
    (c : Cursor) (taken : Nat) : t.walk i c taken = [] := by
  have bare : ∀ {node : TrieNode α} {i : Nat}, n ≤ i → t.nodes.get? i = some node →
      ∀ length, node.completed i length = [] := by
    intro node i hi found length
    have hmark : node.mark = none := by rw [← markOf?_of_get? found, unmarked i hi]
    rw [TrieNode.completed, hmark]
  fun_induction walk t i c taken with
  | case1 => rfl
  | case2 => rfl
  | case3 i c taken node found l here ih =>
    rw [bare h found, List.append_nil, List.flatMap_eq_nil_iff]
    rintro ⟨k, hk⟩ -
    exact ih ⟨k, hk⟩ (Nat.le_trans h (Nat.le_of_lt (t.ordered i node found k hk).1))
  | case4 i c taken node found l here => exact bare h found _

theorem Within.walk_eq (h : t.Within t') {i : Nat} (bound : i < t.nodes.size) (c : Cursor)
    (taken : Nat) : t'.walk i c taken = t.walk i c taken := by
  fun_induction walk t i c taken with
  | case1 i c taken none =>
    obtain ⟨node, found⟩ := exists_get?_of_lt bound
    rw [none] at found
    cases found
  | case2 i c taken node found here =>
    obtain ⟨later, hlater, -⟩ := h.kept found
    simp only [walk_of_get? hlater, here]
  | case3 i c taken node found n here ih =>
    obtain ⟨later, hlater, hnew⟩ := h.kept found
    have hold : (node.children.flatMap fun k => t'.walk k (c.advance n) (taken + n)) =
        node.children.attach.flatMap fun k => t.walk k.1 (c.advance n) (taken + n) := by
      rw [← List.flatMap_congr fun k _ => ih k (t.ordered i node found k.1 k.2).2]
      simp
    have hbare : (later.flatMap fun k => t'.walk k (c.advance n) (taken + n)) = [] :=
      List.flatMap_eq_nil_iff.2 fun k hk =>
        walk_eq_nil (fun _ => h.unmarked) (hnew k hk) _ _
    simp only [walk_of_get? hlater, here, List.flatMap_append, hold, hbare, List.append_nil]
    rfl
  | case4 i c taken node found n here =>
    obtain ⟨later, hlater, -⟩ := h.kept found
    simp only [walk_of_get? hlater, here]
    rfl

theorem Within.matchesAt_eq (h : t.Within t') (bound : rootId < t.nodes.size) (c : Cursor) :
    t'.matchesAt c = t.matchesAt c := by
  rw [matchesAt, matchesAt, h.walk_eq bound]

end Trie

/-- The fragment can be empty, or stands for steps that one of the entries stands for. -/
def Fragment.Conflicts (f : Fragment) (entries : List (Fragment × Reading τ)) : Prop :=
  ∃ steps ∈ f.alternatives, steps = [] ∨ ∃ e ∈ entries, steps ∈ e.1.alternatives

instance (f : Fragment) (entries : List (Fragment × Reading τ)) : Decidable (f.Conflicts entries) :=
  inferInstanceAs (Decidable (∃ steps ∈ f.alternatives,
    steps = [] ∨ ∃ e ∈ entries, steps ∈ e.1.alternatives))

namespace Lexicon

variable {l l' : Lexicon τ}

theorem scan_congr (h : ∀ c, l'.trie.matchesAt c = l.trie.matchesAt c) (text : String) :
    l'.scan text = l.scan text := by
  have next : ∀ c, l'.next? c = l.next? c := fun c => by rw [next?, next?, h]
  have scanFrom : ∀ c, l'.scanFrom c = l.scanFrom c := by
    intro c
    induction hn : c.ahead.length using Nat.strongRecOn generalizing c with
    | _ n ih =>
      by_cases more : c.ahead = []
      · rw [scanFrom_end more, scanFrom_end more]
      · cases found : l.next? c with
        | none => rw [scanFrom_stuck more found, scanFrom_stuck more ((next c).trans found)]
        | some m =>
          have hless := Cursor.length_ahead_advance_lt more (length_pos_of_next? found)
          rw [scanFrom_match more found, scanFrom_match more ((next c).trans found),
            ih _ (hn ▸ hless) _ rfl]
  rw [scan, scan, scanFrom]

theorem deterministic_add (h : l.trie.Deterministic) (f : Fragment) (reading : Reading τ) :
    (l.add f reading).1.trie.Deterministic := by
  have hchain := h.chain f [Trie.rootId]
  rw [add_eq]
  generalize l.trie.chain [Trie.rootId] f = added at hchain
  cases taken : isTaken added.1 added.2 with
  | true => simpa [taken] using hchain
  | false => simpa [taken] using hchain.setMarks reading added.2

theorem deterministic_addAll (h : l.trie.Deterministic) (entries : List (Fragment × Reading τ)) :
    (l.addAll entries).1.trie.Deterministic :=
  addAll_induction (P := fun l => l.trie.Deterministic)
    (fun f reading h => deterministic_add h f reading) entries h

theorem isSome_add_iff {label : Nat → List Step} (labelled : l.trie.Labelled label)
    (h : l.trie.Deterministic) (f : Fragment) (reading : Reading τ) :
    (l.add f reading).2.isSome ↔
      ∃ steps ∈ f.alternatives, steps = [] ∨ ∃ mark, l.trie.Spells steps mark := by
  have hroot : ∀ i ∈ [Trie.rootId], i < l.trie.nodes.size := by
    simpa using Trie.lt_size_of_stepOf? labelled.root
  obtain ⟨label', hextends, hbound, hends⟩ := labelled.chain f hroot
  have hdet := h.chain f [Trie.rootId]
  simp only [List.mem_singleton, exists_eq_left, labelled.label_root, List.nil_append,
    exists_eq_right] at hends
  simp only [← hextends.spells_iff labelled, hextends.labelled.spells_iff, add_eq]
  generalize l.trie.chain [Trie.rootId] f = added at hextends hbound hends hdet
  have htaken : isTaken added.1 added.2 ↔
      ∃ steps ∈ f.alternatives, steps = [] ∨ ∃ mark k, label' k = steps ∧
        added.1.markOf? k = some mark := by
    rw [isTaken, List.any_eq_true]
    constructor
    · rintro ⟨k, hk, hmark⟩
      refine ⟨label' k, (hends _).1 ⟨k, hk, rfl⟩, ?_⟩
      rcases Bool.or_eq_true_iff.1 hmark with hroot | hmark
      · exact .inl ((hextends.labelled.label_eq_nil (hbound k hk)).2 (eq_of_beq hroot))
      · obtain ⟨mark, hmark⟩ := Option.isSome_iff_exists.1 hmark
        exact .inr ⟨mark, k, rfl, hmark⟩
    · rintro ⟨steps, hsteps, hcase⟩
      obtain ⟨k, hk, rfl⟩ := (hends steps).2 hsteps
      refine ⟨k, hk, ?_⟩
      rcases hcase with hempty | ⟨mark, k', hlabel, hmark⟩
      · rw [(hextends.labelled.label_eq_nil (hbound k hk)).1 hempty]
        simp
      · have hk' := Trie.lt_size_of_markOf? hmark
        obtain rfl := hextends.labelled.label_inj hdet hk' (hbound k hk) hlabel
        simp [hmark]
  rw [← htaken]
  cases isTaken added.1 added.2 <;> simp

theorem add_eq_some_of_isSome {f : Fragment} {reading : Reading τ}
    (refused : (l.add f reading).2.isSome) : (l.add f reading).2 = some ⟨f.text⟩ := by
  rw [add_eq] at refused ⊢
  generalize l.trie.chain [Trie.rootId] f = added at refused
  cases taken : isTaken added.1 added.2 with
  | true => simp [taken]
  | false => simp [taken] at refused

theorem matchesAt_of_refused (bound : Trie.rootId < l.trie.nodes.size) {f : Fragment}
    {reading : Reading τ} (refused : (l.add f reading).2.isSome) (c : Cursor) :
    (l.add f reading).1.trie.matchesAt c = l.trie.matchesAt c := by
  have hwithin := Trie.Within.chain l.trie f [Trie.rootId]
  rw [add_eq] at refused ⊢
  generalize l.trie.chain [Trie.rootId] f = added at hwithin refused
  cases taken : isTaken added.1 added.2 with
  | true => simpa [taken] using hwithin.matchesAt_eq bound c
  | false => simp [taken] at refused

/-- After any entries a further fragment is refused exactly if it conflicts with the accepted ones,
and then every text is read as before. -/
theorem add_eq_ite_conflicts (entries : List (Fragment × Reading τ)) (f : Fragment)
    (reading : Reading τ) :
    ((empty.addAll entries).1.add f reading).2 =
        (if f.Conflicts (empty.addAll entries).2 then some ⟨f.text⟩ else none) ∧
      (f.Conflicts (empty.addAll entries).2 → ∀ text,
        ((empty.addAll entries).1.add f reading).1.scan text =
          (empty.addAll entries).1.scan text) := by
  have hdet : (empty.addAll entries).1.trie.Deterministic :=
    deterministic_addAll Trie.deterministic_empty entries
  have hspells := spells_addAll (l := empty) ⟨_, Trie.labelled_empty⟩ entries
  obtain ⟨label, labelled⟩ := (hspells [] reading).1
  have hrefused : ((empty.addAll entries).1.add f reading).2.isSome ↔
      f.Conflicts (empty.addAll entries).2 := by
    simp only [isSome_add_iff labelled hdet, (hspells _ _).2, spells_empty, false_or,
      Fragment.Conflicts, Prod.exists]
    refine exists_congr fun steps => and_congr_right fun _ => or_congr_right exists_comm
  constructor
  · split
    · rename_i conflicts
      exact add_eq_some_of_isSome (hrefused.2 conflicts)
    · rename_i free
      exact Option.not_isSome_iff_eq_none.1 fun refused => free (hrefused.1 refused)
  · intro conflicts
    have hbound := Trie.lt_size_of_stepOf? labelled.root
    exact scan_congr (matchesAt_of_refused hbound (hrefused.2 conflicts))

theorem add_refuses_optional_ending :
    let length : Reading Nat := fun cs => some cs.length
    let l := (empty.addAll [(.append (.just 'a') (.just 'b'), length)]).1
    let f := Fragment.append (.just 'a') (.optional (.just 'b'))
    (l.add f length).2 = some ⟨"a(b)?"⟩ ∧ ∀ text, (l.add f length).1.scan text = l.scan text :=
  have conflicts : Fragment.Conflicts (.append (.just 'a') (.optional (.just 'b')))
      (empty.addAll [(.append (.just 'a') (.just 'b'), fun cs => some cs.length)]).2 := by
    decide
  have h := add_eq_ite_conflicts _ _ _
  ⟨h.1.trans (if_pos conflicts), h.2 conflicts⟩

end Lexicon

end FormulaEngine
