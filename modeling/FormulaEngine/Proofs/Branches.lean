import FormulaEngine.Token.Lexicon

/-!
# Branches

A trie as the tree that its nodes form. The matches of a walk are found by descending this tree, and
the first one that takes anything without listing the others.
-/
namespace FormulaEngine

variable {α β : Type}

/-- A node of a trie with all that is below it. -/
inductive Branch (α : Type) where
  | node (step : Step) (mark : Option α) (children : List (Branch α))

namespace Branch

/-- The mark of a match of this length; one that takes nothing does not count. -/
def completed? (mark : Option α) (length : Nat) : Option (α × Nat) :=
  if 0 < length then mark.map (·, length) else none

mutual

/-- The first match below a node, with its length. -/
def first? : Branch α → Cursor → (taken : Nat) → Option (α × Nat)
  | .node step mark children, c, taken =>
    match step.advance c with
    | .blocked => none
    | .reached n =>
      (firstAmong? children (c.advance n) (taken + n)).or (completed? mark (taken + n))
    | .exhausted n => completed? mark (taken + n)

def firstAmong? : List (Branch α) → Cursor → (taken : Nat) → Option (α × Nat)
  | [], _, _ => none
  | b :: bs, c, taken => (b.first? c taken).or (firstAmong? bs c taken)

end

end Branch

abbrev Rows (α : Type) := List (TrieNode α)

def Trie.rows (t : Trie α) : Rows α := t.nodes.items.toList

theorem Trie.get?_nodes (t : Trie α) (i : Nat) : t.nodes.get? i = t.rows[i]? := by
  simp [Trie.rows, Arena.get?]

theorem Trie.size_nodes (t : Trie α) : t.nodes.size = t.rows.length := by
  simp [Trie.rows, Arena.size]

/-- What is at most so deep below a node. -/
def Rows.branch (rows : Rows α) : (depth : Nat) → (i : Nat) → Branch α
  | 0, _ => .node (.one (.anyOf [])) none []
  | depth + 1, i =>
    match rows[i]? with
    | none => .node (.one (.anyOf [])) none []
    | some node => .node node.step node.mark (node.children.map (branch rows depth))

namespace Branch

mutual

/-- All matches below a node in the order of a walk, with their lengths. -/
def found : Branch α → Cursor → (taken : Nat) → List (α × Nat)
  | .node step mark children, c, taken =>
    match step.advance c with
    | .blocked => []
    | .reached n =>
      foundAmong children (c.advance n) (taken + n) ++ (mark.map (·, taken + n)).toList
    | .exhausted n => (mark.map (·, taken + n)).toList

def foundAmong : List (Branch α) → Cursor → (taken : Nat) → List (α × Nat)
  | [], _, _ => []
  | b :: bs, c, taken => b.found c taken ++ foundAmong bs c taken

end

theorem completed?_eq (mark : Option α) (length : Nat) :
    completed? mark length = (mark.map (·, length)).toList.find? fun m => 0 < m.2 := by
  unfold completed?
  cases mark <;> by_cases h : 0 < length <;> simp [h]

mutual

theorem first?_eq (b : Branch α) (c : Cursor) (taken : Nat) :
    b.first? c taken = (b.found c taken).find? fun m => 0 < m.2 := by
  obtain ⟨step, mark, children⟩ := b
  simp only [first?, found]
  cases step.advance c with
  | blocked => rfl
  | reached n =>
    simp only [firstAmong?_eq children, completed?_eq, List.find?_append]
  | exhausted n => exact completed?_eq mark (taken + n)

theorem firstAmong?_eq (bs : List (Branch α)) (c : Cursor) (taken : Nat) :
    firstAmong? bs c taken = (foundAmong bs c taken).find? fun m => 0 < m.2 := by
  cases bs with
  | nil => rfl
  | cons b bs => rw [firstAmong?, foundAmong, List.find?_append, first?_eq b, firstAmong?_eq bs]

end

theorem found_dead (c : Cursor) (taken : Nat) :
    (Branch.node (α := α) (.one (.anyOf [])) none []).found c taken = [] := by
  obtain ⟨behind, ahead⟩ := c
  cases ahead <;> rfl

end Branch

theorem TrieNode.map_completed (node : TrieNode α) (i length : Nat) :
    (node.completed i length).map (fun m => (m.mark, m.length)) =
      (node.mark.map (·, length)).toList := by
  unfold completed
  cases node.mark <;> rfl

namespace Trie

/-- A walk finds the matches below the node. -/
theorem walk_eq (t : Trie α) {depth i : Nat} (deep : t.rows.length ≤ depth + i) (c : Cursor)
    (taken : Nat) : (t.walk i c taken).map (fun m => (m.mark, m.length)) =
      (t.rows.branch depth i).found c taken := by
  -- Children come after their parents, so that `depth` falls as `i` rises.
  induction depth generalizing i c taken with
  | zero =>
    have hnone : t.nodes.get? i = none := by
      rw [get?_nodes]
      exact List.getElem?_eq_none (by omega)
    rw [walk, Rows.branch, Branch.found_dead]
    split
    · rfl
    · rename_i node h
      rw [hnone] at h
      cases h
  | succ depth ih =>
    rw [walk, Rows.branch, ← get?_nodes]
    split
    · rename_i h
      rw [h]
      exact (Branch.found_dead c taken).symm
    · rename_i node h
      rw [h]
      simp only [Branch.found]
      have among : ∀ children : List Nat, (∀ k ∈ children, i < k) → ∀ c taken,
          (children.flatMap fun k => t.walk k c taken).map (fun m => (m.mark, m.length)) =
            Branch.foundAmong (children.map (t.rows.branch depth)) c taken := by
        intro children later c taken
        induction children with
        | nil => rfl
        | cons k children ihc =>
          have hk := later k (by simp)
          simp only [List.flatMap_cons, List.map_cons, Branch.foundAmong, List.map_append,
            ih (i := k) (by omega), ihc fun k hk => later k (by simp [hk])]
      cases node.step.advance c with
      | blocked => rfl
      | exhausted n => exact node.map_completed i (taken + n)
      | reached n =>
        have hchildren := among node.children (fun k hk => (t.ordered i node h k hk).1)
          (c.advance n) (taken + n)
        simp only [List.map_append, TrieNode.map_completed, ← hchildren]
        congr 2
        simp

end Trie

namespace Rows

def child (rows : Rows α) (parent : Nat) (s : Step) : Rows α × Nat :=
  match rows[parent]? with
  | none => (rows, parent)
  | some node =>
    match node.children.find? (fun k => (rows[k]?).map TrieNode.step == some s) with
    | some k => (rows, k)
    | none =>
      ((rows ++ [TrieNode.leaf s]).modify parent (·.addChild rows.length), rows.length)

def childEach (rows : Rows α) (s : Step) : List Nat → Rows α × List Nat
  | [] => (rows, [])
  | i :: is =>
    let now := rows.child i s
    let later := childEach now.1 s is
    (later.1, now.2 :: later.2)

def chain (rows : Rows α) (tails : List Nat) : Fragment → Rows α × List Nat
  | .step s =>
    let added := rows.childEach s tails
    (added.1, Trie.distinct added.2)
  | .empty => (rows, tails)
  | .append first second =>
    let begun := rows.chain tails first
    begun.1.chain begun.2 second
  | .optional body =>
    let added := rows.chain tails body
    (added.1, Trie.distinct (tails ++ added.2))

def isTaken (rows : Rows α) (ends : List Nat) : Bool :=
  ends.any fun i => i == Trie.rootId || ((rows[i]?).bind TrieNode.mark).isSome

def insert? (rows : Rows α) (f : Fragment) (mark : α) : Option (Rows α) :=
  let added := rows.chain [Trie.rootId] f
  if added.1.isTaken added.2 then none
  else some (added.2.foldl (fun rows i => rows.modify i (·.setMark mark)) added.1)

def insertAll? (rows : Rows α) : List (Fragment × α) → Option (Rows α)
  | [] => some rows
  | (f, mark) :: entries => (rows.insert? f mark).bind (insertAll? · entries)

end Rows

namespace Trie

theorem rows_child (t : Trie α) (parent : Nat) (s : Step) :
    ((t.child parent s).1.rows, (t.child parent s).2) = t.rows.child parent s := by
  unfold child Rows.child childrenOf
  rw [get?_nodes]
  cases h : t.rows[parent]? with
  | none =>
    have hsize : ¬parent < t.nodes.size := by
      rw [size_nodes]
      exact Nat.not_lt.2 (List.getElem?_eq_none_iff.1 h)
    simp [hsize]
  | some node =>
    have hsize : parent < t.nodes.size := by
      rw [size_nodes]
      exact (List.getElem?_eq_some_iff.1 h).1
    simp only [stepOf?, get?_nodes]
    cases node.children.find? fun k => (t.rows[k]?).map TrieNode.step == some s with
    | some k => rfl
    | none =>
      simp only [dif_pos hsize]
      simp [rows, grow, Arena.modify, Arena.alloc, Arena.size]

theorem rows_childEach (t : Trie α) (s : Step) (tails : List Nat) :
    ((t.childEach s tails).1.rows, (t.childEach s tails).2) = t.rows.childEach s tails := by
  induction tails generalizing t with
  | nil => rfl
  | cons i tails ih =>
    simp only [childEach, Rows.childEach, ← rows_child, ← ih]

theorem rows_chain (t : Trie α) (tails : List Nat) (f : Fragment) :
    ((t.chain tails f).1.rows, (t.chain tails f).2) = t.rows.chain tails f := by
  induction f generalizing t tails with
  | step s => simp only [chain, Rows.chain, ← rows_childEach]
  | empty => rfl
  | append first second ih₁ ih₂ => simp only [chain, Rows.chain, ← ih₁, ← ih₂]
  | optional body ih => simp only [chain, Rows.chain, ← ih]

theorem rows_setMark (t : Trie α) (i : Nat) (mark : α) :
    (t.setMark i mark).rows = t.rows.modify i (·.setMark mark) := by
  simp [rows, setMark, Arena.modify]

theorem rows_foldl_setMark (t : Trie α) (ends : List Nat) (mark : α) :
    (ends.foldl (fun t i => t.setMark i mark) t).rows =
      ends.foldl (fun rows i => rows.modify i (·.setMark mark)) t.rows := by
  induction ends generalizing t with
  | nil => rfl
  | cons i ends ih => rw [List.foldl_cons, List.foldl_cons, ih, rows_setMark]

end Trie

theorem Lexicon.isTaken_eq {τ : Type} (t : Trie (Reading τ)) (ends : List Nat) :
    isTaken t ends = t.rows.isTaken ends := by
  simp only [isTaken, Rows.isTaken, Trie.markOf?, Trie.get?_nodes]

theorem Lexicon.add_of_insert? {τ : Type} {l : Lexicon τ} {f : Fragment} {reading : Reading τ}
    {rows : Rows (Reading τ)} (inserted : l.trie.rows.insert? f reading = some rows) :
    ∃ l', l.add f reading = (l', none) ∧ l'.trie.rows = rows := by
  rw [Rows.insert?, ← Trie.rows_chain] at inserted
  simp only [← isTaken_eq, ← Trie.rows_foldl_setMark] at inserted
  rw [add]
  split at inserted
  · cases inserted
  · rename_i hfree
    simp only [Option.some.injEq] at inserted
    simp only [hfree]
    exact ⟨_, rfl, inserted⟩

end FormulaEngine
