import FormulaEngine.Proofs.Denotation

/-!
# Paths of a trie

The steps on the way to a node name it: no two nodes have the same parent and none has two. What a
walk records is therefore what the fragments reach that end at the marked nodes, however many nodes
they share.
-/
namespace FormulaEngine

variable {α : Type}

theorem TrieNode.mem_completed {node : TrieNode α} {i length : Nat} {m : Match α} :
    m ∈ node.completed i length ↔ node.mark = some m.mark ∧ m.node = i ∧ m.length = length := by
  obtain ⟨mark, k, n⟩ := m
  unfold completed
  cases node.mark with
  | none => simp
  | some found => simp [eq_comm]

namespace Trie

/-- The steps on the way down from a node to another, without the one of the first node. -/
inductive Path (t : Trie α) : Nat → List Step → Nat → Prop where
  | here {i : Nat} : Path t i [] i
  | down {i k j : Nat} {node : TrieNode α} {s : Step} {steps : List Step}
    (found : t.nodes.get? i = some node) (child : k ∈ node.children)
    (step : t.stepOf? k = some s) (rest : Path t k steps j) : Path t i (s :: steps) j

variable {t : Trie α}

theorem Path.snoc {i j k : Nat} {steps : List Step} {node : TrieNode α} {s : Step}
    (path : t.Path i steps j) (found : t.nodes.get? j = some node) (child : k ∈ node.children)
    (step : t.stepOf? k = some s) : t.Path i (steps ++ [s]) k := by
  induction path with
  | here => exact .down found child step .here
  | down found' child' step' _ ih => exact .down found' child' step' (ih found)

theorem exists_get?_of_lt {k : Nat} (h : k < t.nodes.size) :
    ∃ node, t.nodes.get? k = some node :=
  ⟨t.nodes.items[k], Array.getElem?_eq_getElem h⟩

theorem stepOf?_of_get? {k : Nat} {node : TrieNode α} (h : t.nodes.get? k = some node) :
    t.stepOf? k = some node.step := by
  simp [stepOf?, h]

theorem markOf?_of_get? {k : Nat} {node : TrieNode α} (h : t.nodes.get? k = some node) :
    t.markOf? k = node.mark := by
  simp [markOf?, h]

theorem lt_size_of_stepOf? {k : Nat} {s : Step} (h : t.stepOf? k = some s) : k < t.nodes.size := by
  obtain ⟨node, hnode, _⟩ := Option.map_eq_some_iff.1 h
  exact Arena.lt_size_of_get? hnode

theorem mem_childrenOf {i k : Nat} :
    k ∈ t.childrenOf i ↔ ∃ node, t.nodes.get? i = some node ∧ k ∈ node.children := by
  unfold childrenOf
  cases t.nodes.get? i with
  | none => simp
  | some node => simp

theorem lt_of_mem_childrenOf {i k : Nat} (h : k ∈ t.childrenOf i) : i < k := by
  obtain ⟨node, found, child⟩ := mem_childrenOf.1 h
  exact (t.ordered i node found k child).1

theorem lt_size_of_mem_childrenOf {i k : Nat} (h : k ∈ t.childrenOf i) : k < t.nodes.size := by
  obtain ⟨node, found, child⟩ := mem_childrenOf.1 h
  exact (t.ordered i node found k child).2

theorem mem_childrenOf_of_find? {parent k : Nat} {s : Step}
    (h : (t.childrenOf parent).find? (fun k => t.stepOf? k == some s) = some k) :
    k ∈ t.childrenOf parent ∧ t.stepOf? k = some s :=
  ⟨List.mem_of_find?_eq_some h, by simpa using List.find?_some h⟩

/-- Below a node whose step is taken, the walk goes on with one of its children or ends. -/
theorem path_iff {i j : Nat} {node : TrieNode α} (found : t.nodes.get? i = some node)
    {steps : List Step} :
    t.Path i steps j ↔ (steps = [] ∧ j = i) ∨
      ∃ k ∈ node.children, ∃ s rest,
        t.stepOf? k = some s ∧ steps = s :: rest ∧ t.Path k rest j := by
  constructor
  · rintro (_ | ⟨found', child, step, rest⟩)
    · exact .inl ⟨rfl, rfl⟩
    · rw [found] at found'
      cases found'
      exact .inr ⟨_, child, _, _, step, rfl, rest⟩
  · rintro (⟨rfl, rfl⟩ | ⟨k, child, s, rest, step, rfl, path⟩)
    · exact .here
    · exact .down found child step path

/-- A walk records the marked nodes to which the steps can be taken. -/
theorem mem_walk_iff {i : Nat} {s : Step} (step : t.stepOf? i = some s) {c : Cursor} {taken : Nat}
    {m : Match α} :
    m ∈ t.walk i c taken ↔ ∃ steps n, t.Path i steps m.node ∧ t.markOf? m.node = some m.mark ∧
      Steps (s :: steps) c n ∧ m.length = taken + n := by
  fun_induction walk t i c taken generalizing s with
  | case1 i c taken h => simp [stepOf?, h] at step
  | case2 i c taken node found here =>
    obtain rfl : node.step = s := Option.some.inj ((stepOf?_of_get? found).symm.trans step)
    constructor
    · intro h
      cases h
    · rintro ⟨steps, n, _, _, hsteps, _⟩
      exact absurd hsteps (Steps.not_of_blocked here)
  | case3 i c taken node found n here ih =>
    obtain rfl : node.step = s := Option.some.inj ((stepOf?_of_get? found).symm.trans step)
    rw [List.mem_append]
    constructor
    · rintro (hbelow | hhere)
      · obtain ⟨⟨k, child⟩, _, hm⟩ := List.mem_flatMap.1 hbelow
        obtain ⟨below, hbelow⟩ := exists_get?_of_lt (t.ordered i node found k child).2
        obtain ⟨steps, l, path, mark, hsteps, hlength⟩ :=
          (ih ⟨k, child⟩ (stepOf?_of_get? hbelow)).1 hm
        exact ⟨_, n + l, .down found child (stepOf?_of_get? hbelow) path, mark, .more here hsteps,
          by omega⟩
      · obtain ⟨mark, rfl, hlength⟩ := TrieNode.mem_completed.1 hhere
        exact ⟨[], n, .here, (markOf?_of_get? found).trans mark, .more here .nil, hlength⟩
    · rintro ⟨steps, l, path, mark, hsteps, hlength⟩
      obtain ⟨l, rfl, rest⟩ := (Steps.reached_iff here).1 hsteps
      rcases (path_iff found).1 path with ⟨rfl, hnode⟩ | ⟨k, child, s, more, step, rfl, below⟩
      · cases rest
        rw [hnode, markOf?_of_get? found] at mark
        exact .inr (TrieNode.mem_completed.2 ⟨mark, hnode, hlength⟩)
      · refine .inl (List.mem_flatMap.2 ⟨⟨k, child⟩, List.mem_attach _ _, ?_⟩)
        exact (ih ⟨k, child⟩ step).2 ⟨more, l, below, mark, rest, by omega⟩
  | case4 i c taken node found n here =>
    obtain rfl : node.step = s := Option.some.inj ((stepOf?_of_get? found).symm.trans step)
    rw [TrieNode.mem_completed]
    constructor
    · rintro ⟨mark, rfl, hlength⟩
      exact ⟨[], n, .here, (markOf?_of_get? found).trans mark, .exhausted here, hlength⟩
    · rintro ⟨steps, l, path, mark, hsteps, hlength⟩
      obtain ⟨rfl, rfl⟩ := (Steps.exhausted_iff here).1 hsteps
      cases path
      exact ⟨(markOf?_of_get? found).symm.trans mark, rfl, hlength⟩

/-- Every node but the root is the child of one node, and its label is the path to it. -/
structure Labelled (t : Trie α) (label : Nat → List Step) : Prop where
  root : t.stepOf? rootId = some .root
  label_root : label rootId = []
  label_child : ∀ {i k node}, t.nodes.get? i = some node → k ∈ node.children →
    ∃ s, t.stepOf? k = some s ∧ label k = label i ++ [s]
  parent : ∀ {k}, k < t.nodes.size → k ≠ rootId →
    ∃ i node, t.nodes.get? i = some node ∧ k ∈ node.children

variable {label : Nat → List Step}

theorem Labelled.label_of_mem (h : t.Labelled label) {i k : Nat} (child : k ∈ t.childrenOf i) :
    ∃ s, t.stepOf? k = some s ∧ label k = label i ++ [s] := by
  obtain ⟨node, found, child⟩ := mem_childrenOf.1 child
  exact h.label_child found child

theorem Labelled.exists_mem (h : t.Labelled label) {k : Nat} (bound : k < t.nodes.size)
    (ne : k ≠ rootId) : ∃ i, k ∈ t.childrenOf i := by
  obtain ⟨i, node, found, child⟩ := h.parent bound ne
  exact ⟨i, mem_childrenOf.2 ⟨node, found, child⟩⟩

theorem labelled_of_childrenOf (root : t.stepOf? rootId = some .root)
    (label_root : label rootId = [])
    (label_child : ∀ {i k}, k ∈ t.childrenOf i →
      ∃ s, t.stepOf? k = some s ∧ label k = label i ++ [s])
    (parent : ∀ {k}, k < t.nodes.size → k ≠ rootId → ∃ i, k ∈ t.childrenOf i) :
    t.Labelled label where
  root := root
  label_root := label_root
  label_child found child := label_child (mem_childrenOf.2 ⟨_, found, child⟩)
  parent bound ne := by
    obtain ⟨i, child⟩ := parent bound ne
    obtain ⟨node, found, child⟩ := mem_childrenOf.1 child
    exact ⟨i, node, found, child⟩

theorem Labelled.label_eq (h : t.Labelled label) {i j : Nat} {steps : List Step}
    (path : t.Path i steps j) : label j = label i ++ steps := by
  induction path with
  | here => simp
  | down found child step _ ih =>
    obtain ⟨s, hs, hlabel⟩ := h.label_child found child
    rw [step] at hs
    cases hs
    simp [ih, hlabel]

theorem Labelled.path (h : t.Labelled label) {k : Nat} (bound : k < t.nodes.size) :
    t.Path rootId (label k) k := by
  induction k using Nat.strongRecOn with
  | _ k ih =>
    by_cases hroot : k = rootId
    · rw [hroot, h.label_root]
      exact .here
    · obtain ⟨i, node, found, child⟩ := h.parent bound hroot
      obtain ⟨s, step, hlabel⟩ := h.label_child found child
      rw [hlabel]
      have path := ih i (t.ordered i node found k child).1 (Arena.lt_size_of_get? found)
      exact path.snoc found child step

theorem Labelled.path_iff (h : t.Labelled label) {k : Nat} {steps : List Step}
    (bound : k < t.nodes.size) : t.Path rootId steps k ↔ label k = steps := by
  constructor
  · intro path
    simpa [h.label_root] using h.label_eq path
  · rintro rfl
    exact h.path bound

theorem labelled_empty : (empty : Trie α).Labelled fun _ => [] where
  root := rfl
  label_root := rfl
  label_child := by
    intro i k node found child
    obtain rfl : i = 0 := by
      have := Arena.lt_size_of_get? found
      simpa [empty, rootId] using this
    cases found
    cases child
  parent := by
    intro k hk hroot
    have : k < 1 := hk
    exact absurd (by simp only [rootId]; omega) hroot

/-- The trie is part of another one, which has no further marks. -/
structure Extends (t : Trie α) (label : Nat → List Step) (t' : Trie α) (label' : Nat → List Step) :
    Prop where
  labelled : t'.Labelled label'
  size_le : t.nodes.size ≤ t'.nodes.size
  label_eq : ∀ k < t.nodes.size, label' k = label k
  mark_eq : ∀ k, t'.markOf? k = t.markOf? k

variable {t' t'' : Trie α} {label' label'' : Nat → List Step}

theorem Labelled.extends_self (h : t.Labelled label) : t.Extends label t label :=
  ⟨h, Nat.le_refl _, fun _ _ => rfl, fun _ => rfl⟩

theorem Extends.trans (first : t.Extends label t' label') (second : t'.Extends label' t'' label'') :
    t.Extends label t'' label'' where
  labelled := second.labelled
  size_le := Nat.le_trans first.size_le second.size_le
  label_eq k hk :=
    (second.label_eq k (Nat.lt_of_lt_of_le hk first.size_le)).trans (first.label_eq k hk)
  mark_eq k := (second.mark_eq k).trans (first.mark_eq k)

theorem get?_grow {parent : Nat} (s : Step) (h : parent < t.nodes.size) (k : Nat) :
    (t.grow parent s h).nodes.get? k =
      if k = t.nodes.size then some (.leaf s)
      else if k = parent then (t.nodes.get? k).map (·.addChild t.nodes.size)
      else t.nodes.get? k := by
  simp only [grow, Arena.get?_modify, Arena.get?_alloc]
  by_cases hnew : k = t.nodes.size
  · rw [if_pos hnew, if_neg (by omega), if_pos hnew]
  · by_cases hparent : parent = k
    · rw [if_pos hparent, if_neg hnew, if_neg hnew, if_pos hparent.symm]
    · rw [if_neg hparent, if_neg hnew, if_neg hnew, if_neg (Ne.symm hparent)]

theorem get?_size : t.nodes.get? t.nodes.size = none := Array.getElem?_size

theorem stepOf?_grow {parent : Nat} (s : Step) (h : parent < t.nodes.size) (k : Nat) :
    (t.grow parent s h).stepOf? k = if k = t.nodes.size then some s else t.stepOf? k := by
  rw [stepOf?, get?_grow, stepOf?]
  split
  · rfl
  · split
    · cases t.nodes.get? k <;> rfl
    · rfl

theorem markOf?_grow {parent : Nat} (s : Step) (h : parent < t.nodes.size) (k : Nat) :
    (t.grow parent s h).markOf? k = t.markOf? k := by
  rw [markOf?, get?_grow, markOf?]
  split
  · rename_i hnew
    rw [hnew, get?_size]
    rfl
  · split
    · cases t.nodes.get? k <;> rfl
    · rfl

theorem childrenOf_grow {parent : Nat} (s : Step) (h : parent < t.nodes.size) (i : Nat) :
    (t.grow parent s h).childrenOf i =
      if i = parent then t.childrenOf i ++ [t.nodes.size] else t.childrenOf i := by
  rw [childrenOf, get?_grow, childrenOf]
  by_cases hnew : i = t.nodes.size
  · have hparent : ¬i = parent := by omega
    rw [if_pos hnew, if_neg hparent, hnew, get?_size]
    rfl
  · rw [if_neg hnew]
    by_cases hparent : i = parent
    · rw [if_pos hparent, if_pos hparent, hparent]
      obtain ⟨node, found⟩ := exists_get?_of_lt h
      rw [found]
      rfl
    · rw [if_neg hparent, if_neg hparent]

theorem mem_childrenOf_grow {parent : Nat} (s : Step) (h : parent < t.nodes.size) {i k : Nat} :
    k ∈ (t.grow parent s h).childrenOf i ↔
      k ∈ t.childrenOf i ∨ i = parent ∧ k = t.nodes.size := by
  rw [childrenOf_grow]
  split <;> simp [*]

theorem Labelled.grow (labelled : t.Labelled label) {parent : Nat} (s : Step)
    (h : parent < t.nodes.size) :
    t.Extends label (t.grow parent s h)
      fun k => if k = t.nodes.size then label parent ++ [s] else label k where
  size_le := by simp [Trie.grow]
  label_eq k hk := if_neg (Nat.ne_of_lt hk)
  mark_eq := markOf?_grow s h
  labelled := by
    have hroot := Nat.ne_of_lt (lt_size_of_stepOf? labelled.root)
    refine labelled_of_childrenOf ?root ?label_root ?label_child ?parent
    case root =>
      rw [stepOf?_grow, if_neg hroot]
      exact labelled.root
    case label_root =>
      rw [if_neg hroot]
      exact labelled.label_root
    case label_child =>
      intro i k child
      rw [stepOf?_grow]
      rcases (mem_childrenOf_grow s h).1 child with old | ⟨rfl, rfl⟩
      · have hk := lt_size_of_mem_childrenOf old
        have hi := Nat.lt_trans (lt_of_mem_childrenOf old) hk
        rw [if_neg (Nat.ne_of_lt hk), if_neg (Nat.ne_of_lt hk), if_neg (Nat.ne_of_lt hi)]
        exact labelled.label_of_mem old
      · rw [if_pos rfl, if_pos rfl, if_neg (Nat.ne_of_lt h)]
        exact ⟨s, rfl, rfl⟩
    case parent =>
      intro k hk hne
      have hsize : (t.grow parent s h).nodes.size = t.nodes.size + 1 := by simp [Trie.grow]
      by_cases hnew : k = t.nodes.size
      · exact ⟨parent, (mem_childrenOf_grow s h).2 (.inr ⟨rfl, hnew⟩)⟩
      · obtain ⟨i, old⟩ := labelled.exists_mem (by omega) hne
        exact ⟨i, (mem_childrenOf_grow s h).2 (.inl old)⟩

theorem mem_distinct {l : List Nat} {k : Nat} : k ∈ distinct l ↔ k ∈ l := by
  induction l with
  | nil => rfl
  | cons i l ih =>
    by_cases hk : k = i <;> simp [distinct, ih, hk]

theorem Labelled.child (labelled : t.Labelled label) {parent : Nat} (s : Step)
    (h : parent < t.nodes.size) :
    ∃ label', t.Extends label (t.child parent s).1 label' ∧
      (t.child parent s).2 < (t.child parent s).1.nodes.size ∧
      label' (t.child parent s).2 = label parent ++ [s] := by
  unfold Trie.child
  split
  · rename_i k hfind
    obtain ⟨hchild, hstep⟩ := mem_childrenOf_of_find? hfind
    obtain ⟨s', hs, hlabel⟩ := labelled.label_of_mem hchild
    rw [hstep] at hs
    cases hs
    exact ⟨label, labelled.extends_self, lt_size_of_mem_childrenOf hchild, hlabel⟩
  · rw [dif_pos h]
    exact ⟨_, labelled.grow s h, by simp [Trie.grow], if_pos rfl⟩

theorem Labelled.childEach (labelled : t.Labelled label) (s : Step) {tails : List Nat}
    (bound : ∀ i ∈ tails, i < t.nodes.size) :
    ∃ label', t.Extends label (t.childEach s tails).1 label' ∧
      (∀ k ∈ (t.childEach s tails).2, k < (t.childEach s tails).1.nodes.size) ∧
      (t.childEach s tails).2.map label' = tails.map fun i => label i ++ [s] := by
  induction tails generalizing t label with
  | nil => exact ⟨label, labelled.extends_self, nofun, rfl⟩
  | cons i tails ih =>
    obtain ⟨label₁, hchild, hk, hlabel⟩ := labelled.child s (bound i (by simp))
    have hbound : ∀ j ∈ tails, j < (t.child i s).1.nodes.size := fun j hj =>
      Nat.lt_of_lt_of_le (bound j (by simp [hj])) hchild.size_le
    obtain ⟨label₂, hrest, hks, hlabels⟩ := ih hchild.labelled hbound
    refine ⟨label₂, hchild.trans hrest, ?_, ?_⟩
    · intro k hmem
      rcases List.mem_cons.1 hmem with rfl | hmem
      · exact Nat.lt_of_lt_of_le hk hrest.size_le
      · exact hks k hmem
    · have htails : (tails.map fun j => label₁ j ++ [s]) = tails.map fun j => label j ++ [s] :=
        List.map_congr_left fun j hj => by rw [hchild.label_eq j (bound j (by simp [hj]))]
      simp only [Trie.childEach, List.map_cons, hrest.label_eq _ hk, hlabel, hlabels, htails]

/-- A fragment that is added below some nodes ends at the nodes to which one of its alternatives
leads from there. -/
theorem Labelled.chain (labelled : t.Labelled label) (f : Fragment) {tails : List Nat}
    (bound : ∀ i ∈ tails, i < t.nodes.size) :
    ∃ label', t.Extends label (t.chain tails f).1 label' ∧
      (∀ k ∈ (t.chain tails f).2, k < (t.chain tails f).1.nodes.size) ∧
      ∀ steps, (∃ k ∈ (t.chain tails f).2, label' k = steps) ↔
        ∃ i ∈ tails, ∃ more ∈ f.alternatives, label i ++ more = steps := by
  induction f generalizing t label tails with
  | step s =>
    obtain ⟨label', hextends, hk, hlabel⟩ := labelled.childEach s bound
    refine ⟨label', hextends, fun k hmem => hk k (mem_distinct.1 hmem), fun steps => ?_⟩
    have hmem : steps ∈ (t.childEach s tails).2.map label' ↔
        steps ∈ tails.map fun i => label i ++ [s] := by rw [hlabel]
    simpa [Trie.chain, mem_distinct, Fragment.alternatives] using hmem
  | empty =>
    refine ⟨label, labelled.extends_self, bound, fun steps => ?_⟩
    simp [Trie.chain, Fragment.alternatives]
  | append first second ih₁ ih₂ =>
    obtain ⟨label₁, hfirst, hbound₁, hends₁⟩ := ih₁ labelled bound
    obtain ⟨label₂, hsecond, hbound₂, hends₂⟩ := ih₂ hfirst.labelled hbound₁
    refine ⟨label₂, hfirst.trans hsecond, hbound₂, fun steps => ?_⟩
    simp only [Fragment.alternatives, List.mem_flatMap, List.mem_map]
    constructor
    · intro h
      obtain ⟨k, hk, more, hmore, rfl⟩ := (hends₂ steps).1 h
      obtain ⟨i, hi, begun, hbegun, hlabel⟩ := (hends₁ _).1 ⟨k, hk, rfl⟩
      exact ⟨i, hi, _, ⟨begun, hbegun, more, hmore, rfl⟩, by rw [← hlabel, List.append_assoc]⟩
    · rintro ⟨i, hi, _, ⟨begun, hbegun, more, hmore, rfl⟩, rfl⟩
      obtain ⟨k, hk, hlabel⟩ := (hends₁ _).2 ⟨i, hi, begun, hbegun, rfl⟩
      exact (hends₂ _).2 ⟨k, hk, more, hmore, by rw [hlabel, List.append_assoc]⟩
  | optional body ih =>
    obtain ⟨label', hextends, hbound, hends⟩ := ih labelled bound
    refine ⟨label', hextends, ?_, fun steps => ?_⟩
    · intro k hmem
      rcases List.mem_append.1 (mem_distinct.1 hmem) with hk | hk
      · exact Nat.lt_of_lt_of_le (bound k hk) hextends.size_le
      · exact hbound k hk
    · simp only [Trie.chain, Fragment.alternatives, mem_distinct, List.mem_append, List.mem_cons]
      constructor
      · rintro ⟨k, hk | hk, rfl⟩
        · exact ⟨k, hk, [], .inl rfl, by rw [List.append_nil, hextends.label_eq k (bound k hk)]⟩
        · obtain ⟨i, hi, more, hmore, hlabel⟩ := (hends _).1 ⟨k, hk, rfl⟩
          exact ⟨i, hi, more, .inr hmore, hlabel⟩
      · rintro ⟨i, hi, more, rfl | hmore, rfl⟩
        · exact ⟨i, .inl hi, by rw [List.append_nil, hextends.label_eq i (bound i hi)]⟩
        · obtain ⟨k, hk, hlabel⟩ := (hends _).2 ⟨i, hi, more, hmore, rfl⟩
          exact ⟨k, .inr hk, hlabel⟩

theorem get?_setMark (i : Nat) (mark : α) (k : Nat) :
    (t.setMark i mark).nodes.get? k =
      if i = k then (t.nodes.get? k).map (·.setMark mark) else t.nodes.get? k :=
  Arena.get?_modify _ _ _ _

theorem childrenOf_setMark (i : Nat) (mark : α) (k : Nat) :
    (t.setMark i mark).childrenOf k = t.childrenOf k := by
  rw [childrenOf, get?_setMark, childrenOf]
  by_cases hik : i = k
  · rw [if_pos hik]
    cases t.nodes.get? k <;> rfl
  · rw [if_neg hik]

theorem stepOf?_setMark (i : Nat) (mark : α) (k : Nat) :
    (t.setMark i mark).stepOf? k = t.stepOf? k := by
  rw [stepOf?, get?_setMark, stepOf?]
  split
  · cases t.nodes.get? k <;> rfl
  · rfl

theorem size_setMark (i : Nat) (mark : α) :
    (t.setMark i mark).nodes.size = t.nodes.size := Arena.size_modify _ _ _

theorem markOf?_setMark (i : Nat) (mark : α) {k : Nat} (bound : k < t.nodes.size) :
    (t.setMark i mark).markOf? k = if i = k then some mark else t.markOf? k := by
  obtain ⟨node, found⟩ := exists_get?_of_lt bound
  rw [markOf?, get?_setMark, markOf?, found]
  split <;> rfl

theorem Labelled.setMark (labelled : t.Labelled label) (i : Nat) (mark : α) :
    (t.setMark i mark).Labelled label := by
  refine labelled_of_childrenOf ?root labelled.label_root ?label_child ?parent
  case root => exact (stepOf?_setMark i mark rootId).trans labelled.root
  case label_child =>
    intro j k child
    rw [childrenOf_setMark] at child
    rw [stepOf?_setMark]
    exact labelled.label_of_mem child
  case parent =>
    intro k hk hne
    rw [size_setMark] at hk
    obtain ⟨j, child⟩ := labelled.exists_mem hk hne
    exact ⟨j, by rwa [childrenOf_setMark]⟩

theorem Labelled.setMarks (labelled : t.Labelled label) (mark : α) (ends : List Nat) :
    (ends.foldl (fun t i => t.setMark i mark) t).Labelled label := by
  induction ends generalizing t with
  | nil => exact labelled
  | cons i ends ih => exact ih (labelled.setMark i mark)

theorem size_setMarks (mark : α) (ends : List Nat) :
    (ends.foldl (fun t i => t.setMark i mark) t).nodes.size = t.nodes.size := by
  induction ends generalizing t with
  | nil => rfl
  | cons i ends ih => rw [List.foldl_cons, ih, size_setMark]

theorem markOf?_setMarks (mark : α) (ends : List Nat) {k : Nat} (bound : k < t.nodes.size) :
    (ends.foldl (fun t i => t.setMark i mark) t).markOf? k =
      if k ∈ ends then some mark else t.markOf? k := by
  induction ends generalizing t with
  | nil => rfl
  | cons i ends ih =>
    rw [List.foldl_cons, ih (by rwa [size_setMark]), markOf?_setMark i mark bound]
    by_cases hmem : k ∈ ends
    · simp [hmem]
    · by_cases hi : i = k
      · simp [hi]
      · simp [hmem, hi, Ne.symm hi]

def Spells (t : Trie α) (steps : List Step) (mark : α) : Prop :=
  ∃ k, t.Path rootId steps k ∧ t.markOf? k = some mark

theorem lt_size_of_markOf? {k : Nat} {mark : α} (h : t.markOf? k = some mark) :
    k < t.nodes.size := by
  obtain ⟨node, hnode, _⟩ := Option.bind_eq_some_iff.1 h
  exact Arena.lt_size_of_get? hnode

theorem Labelled.spells_iff (labelled : t.Labelled label) {steps : List Step} {mark : α} :
    t.Spells steps mark ↔ ∃ k, label k = steps ∧ t.markOf? k = some mark := by
  refine exists_congr fun k => and_congr_left fun hmark => ?_
  exact labelled.path_iff (lt_size_of_markOf? hmark)

theorem Extends.spells_iff (h : t.Extends label t' label') (labelled : t.Labelled label)
    {steps : List Step} {mark : α} : t'.Spells steps mark ↔ t.Spells steps mark := by
  rw [labelled.spells_iff, h.labelled.spells_iff]
  refine exists_congr fun k => ?_
  rw [h.mark_eq]
  refine and_congr_left fun hmark => ?_
  rw [h.label_eq k (lt_size_of_markOf? hmark)]

end Trie

theorem steps_root {steps : List Step} {c : Cursor} {n : Nat} :
    Steps (.root :: steps) c n ↔ Steps steps c n := by
  constructor
  · exact Steps.root_inv
  · intro h
    have := Steps.more (s := .root) (c := c) (n := 0) rfl h
    rwa [Nat.zero_add] at this

namespace Lexicon

variable {τ : Type} {l : Lexicon τ} {label : Nat → List Step}

theorem add_eq (l : Lexicon τ) (f : Fragment) (reading : Reading τ) :
    l.add f reading =
      let added := l.trie.chain [Trie.rootId] f
      if isTaken added.1 added.2 then (⟨added.1⟩, some ⟨f.text⟩)
      else (⟨added.2.foldl (fun t i => t.setMark i reading) added.1⟩, none) := rfl

theorem markOf?_of_free {t : Trie (Reading τ)} {ends : List Nat} (free : isTaken t ends = false)
    {k : Nat} (h : k ∈ ends) : t.markOf? k = none := by
  have hk := List.any_eq_false.1 free k h
  simpa using (Bool.or_eq_false_iff.1 (Bool.eq_false_iff.2 hk)).2

/-- An accepted fragment adds its alternatives to what leads to a mark, a refused one nothing. -/
theorem spells_add (labelled : l.trie.Labelled label) (f : Fragment) (reading : Reading τ) :
    (∃ label', (l.add f reading).1.trie.Labelled label') ∧
      ∀ steps mark, (l.add f reading).1.trie.Spells steps mark ↔ l.trie.Spells steps mark ∨
        (l.add f reading).2 = none ∧ mark = reading ∧ steps ∈ f.alternatives := by
  have hroot : ∀ i ∈ [Trie.rootId], i < l.trie.nodes.size := by
    simpa using Trie.lt_size_of_stepOf? labelled.root
  obtain ⟨label', hextends, hbound, hends⟩ := labelled.chain f hroot
  simp only [List.mem_singleton, exists_eq_left, labelled.label_root, List.nil_append,
    exists_eq_right] at hends
  simp only [← hextends.spells_iff labelled, add_eq]
  generalize l.trie.chain [Trie.rootId] f = added at hextends hbound hends
  cases taken : isTaken added.1 added.2 with
  | true =>
    refine ⟨⟨label', hextends.labelled⟩, fun steps mark => ?_⟩
    simp
  | false =>
    have hmarked := hextends.labelled.setMarks reading added.2
    refine ⟨⟨label', hmarked⟩, fun steps mark => ?_⟩
    simp only [Bool.false_eq_true, if_false, true_and, hmarked.spells_iff,
      hextends.labelled.spells_iff, ← hends]
    constructor
    · rintro ⟨k, hlabel, hmark⟩
      have hk := Trie.lt_size_of_markOf? hmark
      rw [Trie.size_setMarks] at hk
      rw [Trie.markOf?_setMarks reading _ hk] at hmark
      split at hmark
      · rename_i hmem
        exact .inr ⟨(Option.some.inj hmark).symm, k, hmem, hlabel⟩
      · exact .inl ⟨k, hlabel, hmark⟩
    · rintro (⟨k, hlabel, hmark⟩ | ⟨rfl, k, hmem, hlabel⟩)
      · have hfree : k ∉ added.2 := fun hmem => by
          rw [markOf?_of_free taken hmem] at hmark
          cases hmark
        refine ⟨k, hlabel, ?_⟩
        rw [Trie.markOf?_setMarks reading _ (Trie.lt_size_of_markOf? hmark), if_neg hfree, hmark]
      · refine ⟨k, hlabel, ?_⟩
        rw [Trie.markOf?_setMarks mark _ (hbound k hmem), if_pos hmem]

/-- Adds entries one after the other, whether or not some of them are refused; answers those that
are accepted. -/
def addAll (l : Lexicon τ) : List (Fragment × Reading τ) → Lexicon τ × List (Fragment × Reading τ)
  | [] => (l, [])
  | (f, reading) :: entries =>
    match l.add f reading with
    | (l, none) =>
      let (l, accepted) := l.addAll entries
      (l, (f, reading) :: accepted)
    | (l, some _) => l.addAll entries

theorem addAll_cons_fst (l : Lexicon τ) (f : Fragment) (reading : Reading τ)
    (entries : List (Fragment × Reading τ)) :
    (l.addAll ((f, reading) :: entries)).1 = ((l.add f reading).1.addAll entries).1 := by
  rw [addAll]
  rcases l.add f reading with ⟨l', _ | conflict⟩ <;> rfl

theorem addAll_induction {P : Lexicon τ → Prop}
    (add : ∀ {l : Lexicon τ} (f : Fragment) (reading : Reading τ), P l → P (l.add f reading).1)
    (entries : List (Fragment × Reading τ)) (start : P l) : P (l.addAll entries).1 := by
  induction entries generalizing l with
  | nil => exact start
  | cons entry entries ih =>
    rw [addAll_cons_fst]
    exact ih (add entry.1 entry.2 start)

theorem spells_addAll (labelled : ∃ label, l.trie.Labelled label)
    (entries : List (Fragment × Reading τ)) (steps : List Step) (mark : Reading τ) :
    (∃ label, (l.addAll entries).1.trie.Labelled label) ∧
      ((l.addAll entries).1.trie.Spells steps mark ↔ l.trie.Spells steps mark ∨
        ∃ f, (f, mark) ∈ (l.addAll entries).2 ∧ steps ∈ f.alternatives) := by
  induction entries generalizing l with
  | nil => simpa [addAll] using labelled
  | cons entry entries ih =>
    obtain ⟨f, reading⟩ := entry
    obtain ⟨label, hlabel⟩ := labelled
    obtain ⟨hlabelled, hspells⟩ := spells_add hlabel f reading
    obtain ⟨hall, hrest⟩ := ih hlabelled
    have hspells := hspells steps mark
    rw [addAll]
    rcases hadd : l.add f reading with ⟨l', _ | conflict⟩
    · simp only [hadd] at hall hrest hspells ⊢
      refine ⟨hall, ?_⟩
      rw [hrest, hspells]
      simp only [List.mem_cons, Prod.mk.injEq, true_and]
      constructor
      · rintro ((hold | ⟨rfl, hmem⟩) | ⟨g, hg, hmem⟩)
        · exact .inl hold
        · exact .inr ⟨f, .inl ⟨rfl, rfl⟩, hmem⟩
        · exact .inr ⟨g, .inr hg, hmem⟩
      · rintro (hold | ⟨g, ⟨rfl, rfl⟩ | hg, hmem⟩)
        · exact .inl (.inl hold)
        · exact .inl (.inr ⟨rfl, hmem⟩)
        · exact .inr ⟨g, hg, hmem⟩
    · simp only [hadd] at hall hrest hspells ⊢
      refine ⟨hall, ?_⟩
      rw [hrest, hspells]
      simp

theorem spells_empty {steps : List Step} {mark : Reading τ} :
    ¬(empty : Lexicon τ).trie.Spells steps mark := by
  rintro ⟨k, _, hmark⟩
  have hk : k < 1 := Trie.lt_size_of_markOf? hmark
  obtain rfl : k = 0 := by omega
  cases hmark

/-- The matches at a place are where steps that lead to a mark end, unless these take nothing. -/
theorem exists_mem_matchesAt_iff (labelled : l.trie.Labelled label) {c : Cursor}
    {mark : Reading τ} {finish : Nat} :
    (∃ m ∈ l.trie.matchesAt c, m.mark = mark ∧ c.index + m.length = finish) ↔
      c.index < finish ∧
        ∃ steps, l.trie.Spells steps mark ∧ ∃ n, Steps steps c n ∧ c.index + n = finish := by
  simp only [Trie.matchesAt, List.mem_filter, decide_eq_true_eq, Trie.mem_walk_iff labelled.root,
    steps_root, Nat.zero_add]
  constructor
  · rintro ⟨m, ⟨⟨steps, n, path, hmark, hsteps, hlength⟩, hpos⟩, rfl, rfl⟩
    exact ⟨by omega, steps, ⟨m.node, path, hmark⟩, n, hsteps, by omega⟩
  · rintro ⟨hlt, steps, ⟨k, path, hmark⟩, n, hsteps, rfl⟩
    exact ⟨⟨mark, k, n⟩, ⟨⟨steps, n, path, hmark, hsteps, rfl⟩, Nat.lt_add_right_iff_pos.1 hlt⟩,
      rfl, rfl⟩

/-- Sharing nodes neither loses nor invents a match: the matches of a walk at a place are the ends
that the accepted fragments reach from there. -/
theorem exists_mem_matchesAt_addAll_iff (entries : List (Fragment × Reading τ)) (c : Cursor)
    (reading : Reading τ) (finish : Nat) :
    (∃ m ∈ (empty.addAll entries).1.trie.matchesAt c,
        m.mark = reading ∧ c.index + m.length = finish) ↔
      ∃ f, (f, reading) ∈ (empty.addAll entries).2 ∧ c.index < finish ∧
        f.Reaches c.text c.index finish := by
  have hspells := spells_addAll (l := empty) ⟨_, Trie.labelled_empty⟩ entries
  obtain ⟨label, labelled⟩ := (hspells [] reading).1
  simp only [exists_mem_matchesAt_iff labelled, (hspells _ reading).2, spells_empty, false_or,
    Fragment.reaches_iff]
  constructor
  · rintro ⟨hlt, steps, ⟨f, hf, hmem⟩, hsteps⟩
    exact ⟨f, hf, hlt, steps, hmem, hsteps⟩
  · rintro ⟨f, hf, hlt, steps, hmem, hsteps⟩
    exact ⟨hlt, steps, ⟨f, hf, hmem⟩, hsteps⟩

end Lexicon

end FormulaEngine
