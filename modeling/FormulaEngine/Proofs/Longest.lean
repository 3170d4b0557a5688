import FormulaEngine.Proofs.Lexing
import FormulaEngine.Proofs.Registration

/-!
# Longest matches

A walk takes the first match that it finds, which need not be the longest. It is the longest where
no two steps below a node begin with the same character: there the walk finds all matches on one
way down, and those further down before those that it has passed. In the language this is so.
-/
namespace FormulaEngine

variable {α : Type}

namespace Step

/-- The characters that the step can begin with; those of steps that need none are left out. -/
def firsts : Step → List Char
  | .one (.char c) => [c]
  | .one (.anyOf cs) => cs
  | .run (.char c) _ _ => [c]
  | .run (.anyOf cs) _ _ => cs
  | _ => []

/-- At most one of the steps can be taken at any place. -/
def isApart (s t : Step) : Bool := s.takesOnly s.firsts && s.firsts.all t.refuses

theorem advance_of_isApart {s t : Step} (apart : s.isApart t = true) (c : Cursor) :
    s.advance c = .blocked ∨ t.advance c = .blocked := by
  obtain ⟨behind, ahead⟩ := c
  obtain ⟨htakes, hrefuses⟩ := (Bool.and_eq_true _ _).mp apart
  cases ahead with
  | nil => exact .inl (advance_of_avoids htakes (avoids_end s.firsts) behind)
  | cons c cs =>
    by_cases hc : c ∈ s.firsts
    · exact .inr (advance_of_refuses (List.all_eq_true.mp hrefuses c hc) behind cs)
    · exact .inl (advance_of_avoids htakes (avoids_cons hc cs) behind)

end Step

namespace Branch

mutual

def isForked : Branch α → Bool
  | .node _ _ children => areForked children

def areForked : List (Branch α) → Bool
  | [] => true
  | b :: bs => b.isForked && bs.all (fun b' => b.step.isApart b'.step) && areForked bs

end

theorem areForked_cons {b : Branch α} {bs : List (Branch α)} (forked : areForked (b :: bs) = true) :
    b.isForked = true ∧ (∀ b' ∈ bs, b.step.isApart b'.step = true) ∧ areForked bs = true := by
  simpa [areForked, and_assoc] using forked

theorem found_of_blocked {b : Branch α} {c : Cursor} (h : b.step.advance c = .blocked)
    (taken : Nat) : b.found c taken = [] := by
  obtain ⟨s, mark, children⟩ := b
  have hs : s.advance c = .blocked := h
  simp only [found, hs]

theorem foundAmong_of_blocked {bs : List (Branch α)} {c : Cursor}
    (h : ∀ b ∈ bs, b.step.advance c = .blocked) (taken : Nat) : foundAmong bs c taken = [] := by
  induction bs with
  | nil => rfl
  | cons b bs ih =>
    rw [foundAmong, found_of_blocked (h b (by simp)), ih fun b' hb' => h b' (by simp [hb'])]
    rfl

theorem foundAmong_cons_of_areForked {b : Branch α} {bs : List (Branch α)}
    (forked : areForked (b :: bs) = true) (c : Cursor) (taken : Nat) :
    foundAmong (b :: bs) c taken = b.found c taken ∨
      (b.found c taken = [] ∧ foundAmong (b :: bs) c taken = foundAmong bs c taken) := by
  obtain ⟨_, hapart, _⟩ := areForked_cons forked
  by_cases hb : b.step.advance c = .blocked
  · have hfound := found_of_blocked hb taken
    exact .inr ⟨hfound, by rw [foundAmong, hfound, List.nil_append]⟩
  · have hbs : ∀ b' ∈ bs, b'.step.advance c = .blocked := by
      intro b' hb'
      exact (Step.advance_of_isApart (hapart b' hb') c).resolve_left hb
    exact .inl (by rw [foundAmong, foundAmong_of_blocked hbs, List.append_nil])

mutual

theorem le_of_mem_found (b : Branch α) {c : Cursor} {taken : Nat} {m : α × Nat}
    (h : m ∈ b.found c taken) : taken ≤ m.2 := by
  obtain ⟨s, mark, children⟩ := b
  simp only [found] at h
  split at h
  · cases h
  · rename_i n _
    rcases List.mem_append.1 h with hbelow | hhere
    · have hle := le_of_mem_foundAmong children hbelow
      omega
    · obtain ⟨_, _, rfl⟩ := Option.map_eq_some_iff.1 (Option.mem_toList.1 hhere)
      simp
  · obtain ⟨_, _, rfl⟩ := Option.map_eq_some_iff.1 (Option.mem_toList.1 h)
    simp

theorem le_of_mem_foundAmong (bs : List (Branch α)) {c : Cursor} {taken : Nat} {m : α × Nat}
    (h : m ∈ foundAmong bs c taken) : taken ≤ m.2 := by
  cases bs with
  | nil => cases h
  | cons b bs =>
    rcases List.mem_append.1 h with hfirst | hlater
    · exact le_of_mem_found b hfirst
    · exact le_of_mem_foundAmong bs hlater

end

/-- The matches come from the longest to the shortest. -/
def Descends (found : List (α × Nat)) : Prop := found.Pairwise fun m m' => m'.2 ≤ m.2

theorem descends_toList (o : Option (α × Nat)) : Descends o.toList := by
  cases o <;> simp [Descends]

mutual

theorem descends_found (b : Branch α) (forked : b.isForked = true) (c : Cursor) (taken : Nat) :
    Descends (b.found c taken) := by
  obtain ⟨s, mark, children⟩ := b
  simp only [found]
  cases s.advance c with
  | blocked => exact List.Pairwise.nil
  | exhausted n => exact descends_toList _
  | reached n =>
    have hbelow := descends_foundAmong children forked (c.advance n) (taken + n)
    refine List.pairwise_append.2 ⟨hbelow, descends_toList _, fun m hm m' hm' => ?_⟩
    obtain ⟨_, _, rfl⟩ := Option.map_eq_some_iff.1 (Option.mem_toList.1 hm')
    exact le_of_mem_foundAmong children hm

theorem descends_foundAmong (bs : List (Branch α)) (forked : areForked bs = true) (c : Cursor)
    (taken : Nat) : Descends (foundAmong bs c taken) := by
  cases bs with
  | nil => exact List.Pairwise.nil
  | cons b bs =>
    obtain ⟨hb, _, hbs⟩ := areForked_cons forked
    rcases foundAmong_cons_of_areForked forked c taken with hfirst | ⟨_, hlater⟩
    · rw [hfirst]
      exact descends_found b hb c taken
    · rw [hlater]
      exact descends_foundAmong bs hbs c taken

end

end Branch

theorem Branch.Descends.le_of_find? {found : List (α × Nat)} (descends : Descends found)
    {m m' : α × Nat} (first : (found.find? fun m => 0 < m.2) = some m) (mem : m' ∈ found) :
    m'.2 ≤ m.2 := by
  obtain ⟨_, skipped, rest, rfl, hskipped⟩ := List.find?_eq_some_iff_append.1 first
  rcases List.mem_append.1 mem with hbefore | hafter
  · have hzero := hskipped m' hbefore
    simp only [Bool.not_eq_true', decide_eq_false_iff_not] at hzero
    omega
  · rcases List.mem_cons.1 hafter with rfl | hafter
    · exact Nat.le_refl _
    · exact (List.pairwise_cons.1 (List.pairwise_append.1 descends).2.1).1 m' hafter

set_option maxRecDepth 100000 in
theorem Entry.isForked_tree (ignoreBlanks : Bool) : (Entry.tree ignoreBlanks).isForked = true := by
  cases ignoreBlanks <;> decide +kernel

namespace Lexicon

variable {τ : Type} {l : Lexicon τ} {rows : Rows α} {reading : α → Reading τ}

def TakesLongest (l : Lexicon τ) : Prop :=
  ∀ (c : Cursor) (m : Match (Reading τ)), l.next? c = some m →
    ∀ m' ∈ l.trie.walk Trie.rootId c 0, m'.length ≤ m.length

theorem takesLongest_of_isForked (reads : l.Reads rows reading) (forked : rows.tree.isForked = true) :
    l.TakesLongest := by
  intro c m next m' mem
  have hdescends := Branch.descends_found rows.tree forked c 0
  obtain ⟨mark, hfirst⟩ := next?_eq_some reads next
  rw [Branch.first?_eq] at hfirst
  have hmem : (m'.mark, m'.length) ∈ (rows.tree.found c 0).map fun m => (reading m.1, m.2) := by
    rw [← walk_eq reads]
    exact List.mem_map_of_mem mem
  obtain ⟨found, hfound, heq⟩ := List.mem_map.1 hmem
  obtain ⟨_, hlength⟩ := Prod.mk.inj heq
  rw [← hlength]
  exact hdescends.le_of_find? hfirst hfound

end Lexicon

theorem Grammar.Speaks.takesLongest {V : Type} [Operand V] {g : Grammar V} {ignoreBlanks : Bool}
    {i : Formula.Interpretation V} (speaks : g.Speaks ignoreBlanks i) : g.lexicon.TakesLongest := by
  obtain ⟨rows, htree, hreads, _⟩ := speaks
  exact Lexicon.takesLongest_of_isForked hreads (htree ▸ Entry.isForked_tree ignoreBlanks)

/-- The grammars that evaluate and that simplify both take the longest token at every place. -/
theorem Formula.grammars_take_longest (o : Options) :
    (∃ g, grammar o = .ok g ∧ g.lexicon.TakesLongest) ∧
      ∃ g, symbolGrammar o = .ok g ∧ g.lexicon.TakesLongest := by
  obtain ⟨g, hbuild, hspeaks⟩ := exists_grammar o (arithmetic o.strict)
  obtain ⟨g', hbuild', hspeaks'⟩ := exists_symbolGrammar o
  exact ⟨⟨g, hbuild, hspeaks.takesLongest⟩, g', hbuild', hspeaks'.takesLongest⟩

set_option maxRecDepth 100000 in
/-- `mineach` begins with `min`, and is the token that is taken. -/
theorem Formula.grammars_take_longest_mineach :
    ∃ g m m', grammar ⟨false, false⟩ = .ok g ∧ g.lexicon.next? (.start "mineach".toList) = some m ∧
      m' ∈ g.lexicon.trie.walk Trie.rootId (.start "mineach".toList) 0 ∧
      m'.length = 3 ∧ m.length = 7 ∧ m'.length ≤ m.length := by
  obtain ⟨⟨g, hbuild, hlongest⟩, _⟩ := grammars_take_longest ⟨false, false⟩
  obtain ⟨g', hbuild', rows, htree, hreads, _⟩ :=
    exists_grammar ⟨false, false⟩ (arithmetic false)
  obtain rfl : g = g' := Except.ok.inj (hbuild.symm.trans hbuild')
  have hfound : rows.tree.found (.start "mineach".toList) 0 =
      [(Entry.one .minEach, 7), (Entry.many .min, 3)] := by
    rw [htree]
    decide +kernel
  have hwalk := Lexicon.walk_eq hreads (.start "mineach".toList)
  rw [hfound] at hwalk
  obtain ⟨m, rest, hm, hlength, hrest⟩ := List.map_eq_cons_iff.1 hwalk
  obtain ⟨m', rest', rfl, hlength', _⟩ := List.map_eq_cons_iff.1 hrest
  have hseven : m.length = 7 := (Prod.mk.inj hlength).2
  have hthree : m'.length = 3 := (Prod.mk.inj hlength').2
  have hnext : g.lexicon.next? (.start "mineach".toList) = some m := by
    rw [Lexicon.next?, Trie.matchesAt, hm]
    simp [hseven]
  have hmem : m' ∈ g.lexicon.trie.walk Trie.rootId (.start "mineach".toList) 0 := by
    rw [hm]
    simp
  exact ⟨g, m, m', hbuild, hnext, hmem, hthree, hseven, hlongest _ m hnext m' hmem⟩

end FormulaEngine
