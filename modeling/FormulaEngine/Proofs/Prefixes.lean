import FormulaEngine.Proofs.Refusals
import Mathlib.Data.Finset.Card
import Mathlib.Data.Finset.Image

/-!
# Prefix trees

The trie of a lexicon is the prefix tree of all fragments that were ever added, the refused ones
included: its nodes are the beginnings of their alternatives, each of them once. Marks stand where
the alternatives of the accepted fragments end.
-/
namespace FormulaEngine

variable {α τ : Type}

namespace Fragment

theorem exists_mem_alternatives (f : Fragment) : ∃ steps, steps ∈ f.alternatives := by
  induction f with
  | step s => exact ⟨[s], List.mem_singleton_self _⟩
  | empty => exact ⟨[], List.mem_singleton_self _⟩
  | append first second ih₁ ih₂ =>
    obtain ⟨steps, hsteps⟩ := ih₁
    obtain ⟨more, hmore⟩ := ih₂
    exact ⟨steps ++ more, List.mem_flatMap.2 ⟨steps, hsteps, List.mem_map_of_mem hmore⟩⟩
  | optional body _ => exact ⟨[], List.mem_cons_self⟩

/-- The steps are how an alternative of the fragment begins. -/
def Begins (f : Fragment) (steps : List Step) : Prop := ∃ whole ∈ f.alternatives, steps <+: whole

theorem begins_nil (f : Fragment) : f.Begins [] := by
  obtain ⟨whole, hwhole⟩ := f.exists_mem_alternatives
  exact ⟨whole, hwhole, List.nil_prefix⟩

theorem begins_step {s : Step} {steps : List Step} :
    (step s).Begins steps ↔ steps = [] ∨ steps = [s] := by
  simp only [Begins, alternatives, List.mem_singleton, exists_eq_left]
  constructor
  · intro hprefix
    rcases List.prefix_cons_iff.1 hprefix with rfl | ⟨rest, rfl, hrest⟩
    · exact .inl rfl
    · exact .inr (by rw [List.prefix_nil.1 hrest])
  · rintro (rfl | rfl)
    · exact List.nil_prefix
    · exact List.prefix_rfl

theorem begins_empty {steps : List Step} : empty.Begins steps ↔ steps = [] := by
  simp [Begins, alternatives]

theorem begins_optional {body : Fragment} {steps : List Step} :
    (optional body).Begins steps ↔ body.Begins steps := by
  constructor
  · rintro ⟨whole, hwhole, hprefix⟩
    rcases List.mem_cons.1 hwhole with rfl | hwhole
    · rw [List.prefix_nil.1 hprefix]
      exact body.begins_nil
    · exact ⟨whole, hwhole, hprefix⟩
  · rintro ⟨whole, hwhole, hprefix⟩
    exact ⟨whole, List.mem_cons_of_mem _ hwhole, hprefix⟩

theorem begins_append {first second : Fragment} {steps : List Step} :
    (append first second).Begins steps ↔ first.Begins steps ∨
      ∃ whole ∈ first.alternatives, ∃ more, second.Begins more ∧ whole ++ more = steps := by
  simp only [Begins, alternatives, List.mem_flatMap, List.mem_map]
  constructor
  · rintro ⟨_, ⟨whole, hwhole, more, hmore, rfl⟩, hprefix⟩
    rcases List.prefix_or_prefix_of_prefix hprefix (List.prefix_append whole more) with h | h
    · exact .inl ⟨whole, hwhole, h⟩
    · obtain ⟨rest, rfl⟩ := h
      have hrest : rest <+: more := (List.prefix_append_right_inj whole).1 hprefix
      exact .inr ⟨whole, hwhole, rest, ⟨more, hmore, hrest⟩, rfl⟩
  · rintro (⟨whole, hwhole, hprefix⟩ | ⟨whole, hwhole, more, ⟨rest, hrest, hprefix⟩, rfl⟩)
    · obtain ⟨rest, hrest⟩ := second.exists_mem_alternatives
      exact ⟨_, ⟨whole, hwhole, rest, hrest, rfl⟩, hprefix.trans (List.prefix_append _ _)⟩
    · exact ⟨_, ⟨whole, hwhole, rest, hrest, rfl⟩, (List.prefix_append_right_inj _).2 hprefix⟩

/-- The beginnings of the alternatives of fragments, but for the empty one. -/
def beginnings (fs : List Fragment) : Finset (List Step) :=
  ((fs.flatMap alternatives).flatMap List.inits).toFinset.erase []

theorem mem_beginnings {fs : List Fragment} {steps : List Step} :
    steps ∈ beginnings fs ↔ steps ≠ [] ∧ ∃ f ∈ fs, f.Begins steps := by
  simp only [beginnings, Finset.mem_erase, List.mem_toFinset, List.mem_flatMap, List.mem_inits,
    Begins]
  refine and_congr_right fun _ => ?_
  constructor
  · rintro ⟨whole, ⟨f, hf, hwhole⟩, hprefix⟩
    exact ⟨f, hf, whole, hwhole, hprefix⟩
  · rintro ⟨f, hf, whole, hwhole, hprefix⟩
    exact ⟨whole, ⟨f, hf, hwhole⟩, hprefix⟩

end Fragment

namespace Trie

variable {t t' : Trie α} {label label' : Nat → List Step}

def Occurs (t : Trie α) (steps : List Step) : Prop := ∃ k, t.Path rootId steps k

theorem Path.lt_size {i j : Nat} {steps : List Step} (path : t.Path i steps j)
    (bound : i < t.nodes.size) : j < t.nodes.size := by
  induction path with
  | here => exact bound
  | down found child _ _ ih => exact ih (t.ordered _ _ found _ child).2

theorem Labelled.occurs_iff (labelled : t.Labelled label) {steps : List Step} :
    t.Occurs steps ↔ ∃ k < t.nodes.size, label k = steps := by
  constructor
  · rintro ⟨k, path⟩
    have hk := path.lt_size (lt_size_of_stepOf? labelled.root)
    exact ⟨k, hk, (labelled.path_iff hk).1 path⟩
  · rintro ⟨k, hk, hlabel⟩
    exact ⟨k, (labelled.path_iff hk).2 hlabel⟩

theorem Labelled.occurs_grow (labelled : t.Labelled label) {parent : Nat} (s : Step)
    (h : parent < t.nodes.size) {steps : List Step} :
    (t.grow parent s h).Occurs steps ↔ t.Occurs steps ∨ label parent ++ [s] = steps := by
  have hgrown := labelled.grow s h
  have hsize : (t.grow parent s h).nodes.size = t.nodes.size + 1 := by simp [Trie.grow]
  rw [hgrown.labelled.occurs_iff, labelled.occurs_iff, hsize]
  constructor
  · rintro ⟨k, hk, hlabel⟩
    split at hlabel
    · exact .inr hlabel
    · exact .inl ⟨k, by omega, hlabel⟩
  · rintro (⟨k, hk, hlabel⟩ | hlabel)
    · exact ⟨k, by omega, by rwa [if_neg (Nat.ne_of_lt hk)]⟩
    · exact ⟨t.nodes.size, Nat.lt_succ_self _, by rwa [if_pos rfl]⟩

theorem Labelled.occurs_child (labelled : t.Labelled label) {parent : Nat} (s : Step)
    (h : parent < t.nodes.size) {steps : List Step} :
    (t.child parent s).1.Occurs steps ↔ t.Occurs steps ∨ label parent ++ [s] = steps := by
  unfold Trie.child
  split
  · rename_i k hfind
    obtain ⟨hchild, hstep⟩ := mem_childrenOf_of_find? hfind
    obtain ⟨node, found, hchild⟩ := mem_childrenOf.1 hchild
    have hoccurs : t.Occurs (label parent ++ [s]) :=
      ⟨k, (labelled.path h).snoc found hchild hstep⟩
    exact ⟨.inl, fun hcases => hcases.elim id fun hlabel => hlabel ▸ hoccurs⟩
  · rw [dif_pos h]
    exact labelled.occurs_grow s h

theorem Labelled.occurs_childEach (labelled : t.Labelled label) (s : Step) {tails : List Nat}
    (bound : ∀ i ∈ tails, i < t.nodes.size) {steps : List Step} :
    (t.childEach s tails).1.Occurs steps ↔
      t.Occurs steps ∨ ∃ i ∈ tails, label i ++ [s] = steps := by
  induction tails generalizing t label with
  | nil => simp [Trie.childEach]
  | cons i tails ih =>
    obtain ⟨label₁, hchild, -, -⟩ := labelled.child s (bound i List.mem_cons_self)
    have holder : ∀ j ∈ tails, j < t.nodes.size := fun j hj => bound j (List.mem_cons_of_mem i hj)
    have hrest := ih hchild.labelled fun j hj => Nat.lt_of_lt_of_le (holder j hj) hchild.size_le
    have hsame : (∃ j ∈ tails, label₁ j ++ [s] = steps) ↔ ∃ j ∈ tails, label j ++ [s] = steps :=
      exists_congr fun j => and_congr_right fun hj => by rw [hchild.label_eq j (holder j hj)]
    rw [Trie.childEach]
    simp only [hrest, labelled.occurs_child s (bound i List.mem_cons_self), hsame, or_assoc,
      List.mem_cons, or_and_right, exists_or, exists_eq_left]

/-- A fragment that is added below some nodes brings the beginnings of its alternatives there, and
no other nodes. -/
theorem Labelled.occurs_chain (labelled : t.Labelled label) (f : Fragment) {tails : List Nat}
    (bound : ∀ i ∈ tails, i < t.nodes.size) (steps : List Step) :
    (t.chain tails f).1.Occurs steps ↔
      t.Occurs steps ∨ ∃ i ∈ tails, ∃ more, f.Begins more ∧ label i ++ more = steps := by
  have start : ∀ {t : Trie α} {label : Nat → List Step} {tails : List Nat} {steps : List Step},
      t.Labelled label → (∀ i ∈ tails, i < t.nodes.size) →
      (∃ i ∈ tails, label i ++ [] = steps) → t.Occurs steps := by
    rintro t label tails _ labelled bound ⟨i, hi, rfl⟩
    rw [List.append_nil]
    exact ⟨i, labelled.path (bound i hi)⟩
  induction f generalizing t label tails steps with
  | step s =>
    rw [Trie.chain]
    simp only [labelled.occurs_childEach s bound, Fragment.begins_step]
    constructor
    · rintro (hold | ⟨i, hi, hlabel⟩)
      · exact .inl hold
      · exact .inr ⟨i, hi, [s], .inr rfl, hlabel⟩
    · rintro (hold | ⟨i, hi, more, rfl | rfl, hlabel⟩)
      · exact .inl hold
      · exact .inl (start labelled bound ⟨i, hi, hlabel⟩)
      · exact .inr ⟨i, hi, hlabel⟩
  | empty =>
    simp only [Trie.chain, Fragment.begins_empty, exists_eq_left]
    exact ⟨.inl, fun hcases => hcases.elim id (start labelled bound)⟩
  | append first second ih₁ ih₂ =>
    obtain ⟨label₁, hfirst, hbound, hends⟩ := labelled.chain first bound
    simp only [Trie.chain, ih₂ hfirst.labelled hbound, ih₁ labelled bound, Fragment.begins_append]
    constructor
    · rintro ((hold | ⟨i, hi, more, hmore, hlabel⟩) | ⟨k, hk, more, hmore, rfl⟩)
      · exact .inl hold
      · exact .inr ⟨i, hi, more, .inl hmore, hlabel⟩
      · obtain ⟨i, hi, whole, hwhole, hlabel⟩ := (hends _).1 ⟨k, hk, rfl⟩
        refine .inr ⟨i, hi, whole ++ more, .inr ⟨whole, hwhole, more, hmore, rfl⟩, ?_⟩
        rw [← hlabel, List.append_assoc]
    · rintro (hold | ⟨i, hi, more, hmore | ⟨whole, hwhole, more, hmore, rfl⟩, rfl⟩)
      · exact .inl (.inl hold)
      · exact .inl (.inr ⟨i, hi, more, hmore, rfl⟩)
      · obtain ⟨k, hk, hlabel⟩ := (hends _).2 ⟨i, hi, whole, hwhole, rfl⟩
        exact .inr ⟨k, hk, more, hmore, by rw [hlabel, List.append_assoc]⟩
  | optional body ih =>
    simp only [Trie.chain, ih labelled bound, Fragment.begins_optional]

theorem Labelled.occurs_setMarks (labelled : t.Labelled label) (mark : α) (ends : List Nat)
    {steps : List Step} :
    (ends.foldl (fun t i => t.setMark i mark) t).Occurs steps ↔ t.Occurs steps := by
  rw [(labelled.setMarks mark ends).occurs_iff, labelled.occurs_iff, size_setMarks]

theorem occurs_empty {steps : List Step} : (empty : Trie α).Occurs steps ↔ steps = [] := by
  have hsize : (empty : Trie α).nodes.size = 1 := rfl
  rw [labelled_empty.occurs_iff, hsize]
  exact ⟨fun ⟨_, _, h⟩ => h.symm, fun h => ⟨0, Nat.one_pos, h.symm⟩⟩

theorem Labelled.size_eq_card (labelled : t.Labelled label) (deterministic : t.Deterministic)
    (words : Finset (List Step)) (h : ∀ steps, t.Occurs steps ↔ steps ∈ words) :
    t.nodes.size = words.card := by
  have himage : (Finset.range t.nodes.size).image label = words := by
    ext steps
    simp only [Finset.mem_image, Finset.mem_range, ← h, labelled.occurs_iff]
  rw [← himage, Finset.card_image_of_injOn, Finset.card_range]
  intro k hk k' hk' hlabel
  exact labelled.label_inj deterministic (Finset.mem_range.1 hk) (Finset.mem_range.1 hk') hlabel

theorem Labelled.exists_parent (labelled : t.Labelled label) (deterministic : t.Deterministic)
    {k : Nat} (bound : k < t.nodes.size) (ne : k ≠ rootId) :
    ∃ i < k, ∀ j, k ∈ t.childrenOf j ↔ j = i := by
  obtain ⟨i, hi⟩ := labelled.exists_mem bound ne
  have hbound : ∀ {j}, k ∈ t.childrenOf j → j < t.nodes.size := fun hj =>
    Nat.lt_trans (lt_of_mem_childrenOf hj) bound
  refine ⟨i, lt_of_mem_childrenOf hi, fun j => ⟨fun hj => ?_, ?_⟩⟩
  · obtain ⟨s, _, hlabel⟩ := labelled.label_of_mem hi
    obtain ⟨s', _, hlabel'⟩ := labelled.label_of_mem hj
    have hsame : label j = label i := (List.append_inj' (hlabel'.symm.trans hlabel) rfl).1
    exact labelled.label_inj deterministic (hbound hj) (hbound hi) hsame
  · rintro rfl
    exact hi

/-- The trie is the prefix tree of fragments, with marks where some of them end. -/
structure IsPrefixTree (t : Trie α) (fs : List Fragment) (marked : List (Fragment × α)) :
    Prop where
  size_eq : t.size = 1 + (Fragment.beginnings fs).card
  occurs_iff : ∀ steps, t.Occurs steps ↔ steps = [] ∨ steps ∈ Fragment.beginnings fs
  existsUnique_path : ∀ k < t.size, ∃! steps, t.Path rootId steps k
  steps_nodup : ∀ i, ((t.childrenOf i).map t.stepOf?).Nodup
  exists_parent : ∀ k < t.size, k ≠ rootId → ∃ i < k, ∀ j, k ∈ t.childrenOf j ↔ j = i
  root_notMem : ∀ i, rootId ∉ t.childrenOf i
  child_lt : ∀ i, ∀ k ∈ t.childrenOf i, k < t.size
  root_unmarked : t.markOf? rootId = none
  markOf?_iff : ∀ k mark, t.markOf? k = some mark ↔
    ∃ f steps, (f, mark) ∈ marked ∧ steps ∈ f.alternatives ∧ t.Path rootId steps k

end Trie

namespace Lexicon

variable {l : Lexicon τ} {label : Nat → List Step}

theorem occurs_add (labelled : l.trie.Labelled label) (f : Fragment) (reading : Reading τ)
    {steps : List Step} :
    (l.add f reading).1.trie.Occurs steps ↔ l.trie.Occurs steps ∨ f.Begins steps := by
  have hroot : ∀ i ∈ [Trie.rootId], i < l.trie.nodes.size := by
    simpa using Trie.lt_size_of_stepOf? labelled.root
  obtain ⟨label', hextends, -, -⟩ := labelled.chain f hroot
  have hchain := labelled.occurs_chain f hroot steps
  simp only [List.mem_singleton, exists_eq_left, labelled.label_root, List.nil_append,
    exists_eq_right] at hchain
  rw [← hchain, add_eq]
  generalize l.trie.chain [Trie.rootId] f = added at hextends
  cases taken : isTaken added.1 added.2 with
  | true => simp [taken]
  | false => simpa [taken] using hextends.labelled.occurs_setMarks reading added.2

theorem occurs_addAll (labelled : ∃ label, l.trie.Labelled label)
    (entries : List (Fragment × Reading τ)) {steps : List Step} :
    (l.addAll entries).1.trie.Occurs steps ↔
      l.trie.Occurs steps ∨ ∃ f ∈ entries.map Prod.fst, f.Begins steps := by
  induction entries generalizing l with
  | nil => simp [addAll]
  | cons entry entries ih =>
    obtain ⟨f, reading⟩ := entry
    obtain ⟨label, hlabel⟩ := labelled
    rw [addAll_cons_fst, ih (spells_add hlabel f reading).1, occurs_add hlabel]
    simp only [List.map_cons, List.mem_cons, exists_eq_or_imp, or_assoc]

/-- A fragment that can be empty is refused, so that the root has no mark. -/
theorem markOf?_root_add (labelled : l.trie.Labelled label) (f : Fragment) (reading : Reading τ)
    (unmarked : l.trie.markOf? Trie.rootId = none) :
    (l.add f reading).1.trie.markOf? Trie.rootId = none := by
  have hroot : ∀ i ∈ [Trie.rootId], i < l.trie.nodes.size := by
    simpa using Trie.lt_size_of_stepOf? labelled.root
  obtain ⟨label', hextends, -, -⟩ := labelled.chain f hroot
  have hmark := (hextends.mark_eq Trie.rootId).trans unmarked
  rw [add_eq]
  generalize l.trie.chain [Trie.rootId] f = added at hextends hmark
  cases taken : isTaken added.1 added.2 with
  | true => simpa [taken] using hmark
  | false =>
    have hnot : Trie.rootId ∉ added.2 := fun hmem => by
      simpa using List.any_eq_false.1 taken _ hmem
    have hbound := Trie.lt_size_of_stepOf? hextends.labelled.root
    simp only [taken, Bool.false_eq_true, if_false]
    rw [Trie.markOf?_setMarks reading _ hbound, if_neg hnot, hmark]

section

variable (entries : List (Fragment × Reading τ))

theorem exists_labelled_empty : ∃ label, (empty : Lexicon τ).trie.Labelled label :=
  ⟨_, Trie.labelled_empty⟩

theorem occurs_addAll_empty (steps : List Step) : (empty.addAll entries).1.trie.Occurs steps ↔
    steps = [] ∨ steps ∈ Fragment.beginnings (entries.map Prod.fst) := by
  have hempty : (empty : Lexicon τ).trie.Occurs steps ↔ steps = [] := Trie.occurs_empty
  rw [occurs_addAll exists_labelled_empty, hempty, Fragment.mem_beginnings]
  by_cases hnil : steps = [] <;> simp [hnil]

theorem markOf?_root_addAll : (empty.addAll entries).1.trie.markOf? Trie.rootId = none := by
  have hkept := addAll_induction
    (P := fun l => (∃ label, l.trie.Labelled label) ∧ l.trie.markOf? Trie.rootId = none)
    (fun f reading ⟨⟨_, hlabel⟩, hmark⟩ =>
      ⟨(spells_add hlabel f reading).1, markOf?_root_add hlabel f reading hmark⟩)
    entries (l := empty) ⟨exists_labelled_empty, rfl⟩
  exact hkept.2

theorem markOf?_addAll_iff (labelled : (empty.addAll entries).1.trie.Labelled label) (k : Nat)
    (mark : Reading τ) : (empty.addAll entries).1.trie.markOf? k = some mark ↔
      ∃ f steps, (f, mark) ∈ (empty.addAll entries).2 ∧ steps ∈ f.alternatives ∧
        (empty.addAll entries).1.trie.Path Trie.rootId steps k := by
  have hdet : (empty.addAll entries).1.trie.Deterministic :=
    deterministic_addAll Trie.deterministic_empty entries
  have hspells := spells_addAll exists_labelled_empty entries
  constructor
  · intro hmark
    have path := labelled.path (Trie.lt_size_of_markOf? hmark)
    rcases (hspells (label k) mark).2.1 ⟨k, path, hmark⟩ with hnone | ⟨f, hf, hsteps⟩
    · exact absurd hnone spells_empty
    · exact ⟨f, label k, hf, hsteps, path⟩
  · rintro ⟨f, steps, hf, hsteps, path⟩
    obtain ⟨k', path', hmark⟩ := (hspells steps mark).2.2 (.inr ⟨f, hf, hsteps⟩)
    rwa [hdet.path_unique path path']

/-- The trie of a lexicon is exactly the prefix tree of the fragments that were added, accepted or
refused, with the readings of the accepted ones as its marks. -/
theorem isPrefixTree_addAll :
    (empty.addAll entries).1.trie.IsPrefixTree (entries.map Prod.fst)
      (empty.addAll entries).2 := by
  have hdet : (empty.addAll entries).1.trie.Deterministic :=
    deterministic_addAll Trie.deterministic_empty entries
  obtain ⟨label, labelled⟩ := (spells_addAll exists_labelled_empty entries [] fun _ => none).1
  have hoccurs := occurs_addAll_empty entries
  constructor
  case size_eq =>
    have hcard := labelled.size_eq_card hdet
      (insert [] (Fragment.beginnings (entries.map Prod.fst)))
      fun steps => by rw [hoccurs, Finset.mem_insert]
    rw [Finset.card_insert_of_notMem fun h => (Fragment.mem_beginnings.1 h).1 rfl] at hcard
    rw [Trie.size, hcard, Nat.add_comm]
  case occurs_iff => exact hoccurs
  case existsUnique_path =>
    intro k hk
    refine ⟨label k, labelled.path hk, fun steps path => ?_⟩
    exact ((labelled.path_iff hk).1 path).symm
  case steps_nodup => exact hdet
  case exists_parent => exact fun k hk => labelled.exists_parent hdet hk
  case root_notMem => exact fun i hroot => Nat.not_lt_zero i (Trie.lt_of_mem_childrenOf hroot)
  case child_lt => exact fun i k hk => Trie.lt_size_of_mem_childrenOf hk
  case root_unmarked => exact markOf?_root_addAll entries
  case markOf?_iff => exact fun k mark => markOf?_addAll_iff entries labelled k mark

end

-- the second fragment is refused, since it can end where the first one does, but its node stays
example : ((empty : Lexicon Nat).addAll [(.just 'a', fun _ => none),
    (.append (.just 'a') (.optional (.just 'b')), fun _ => none)]).1.size = 3 := by decide

end Lexicon

end FormulaEngine
