import FormulaEngine.Proofs.Branches

/-!
# Cutting

Where a text is cut into tokens depends on the fragments of a lexicon and not on what they are read
as: lexicons with the same fragments cut every text into the same pieces.
-/
namespace FormulaEngine

variable {α β : Type}

namespace Branch

mutual

def map (f : α → β) : Branch α → Branch β
  | .node step mark children => .node step (mark.map f) (mapAll f children)

def mapAll (f : α → β) : List (Branch α) → List (Branch β)
  | [] => []
  | b :: bs => b.map f :: mapAll f bs

end

theorem mapAll_eq (f : α → β) (bs : List (Branch α)) : mapAll f bs = bs.map (map f) := by
  induction bs with
  | nil => rfl
  | cons b bs ih => rw [mapAll, ih, List.map_cons]

mutual

theorem found_map (f : α → β) (b : Branch α) (c : Cursor) (taken : Nat) :
    (b.map f).found c taken = (b.found c taken).map fun m => (f m.1, m.2) := by
  obtain ⟨step, mark, children⟩ := b
  have hmark : ∀ n : Nat, ((mark.map f).map (·, n)).toList =
      ((mark.map (·, n)).toList).map fun m => (f m.1, m.2) := by
    intro n
    cases mark <;> rfl
  simp only [map, found]
  cases step.advance c with
  | blocked => rfl
  | exhausted n => exact hmark (taken + n)
  | reached n => simp only [foundAmong_map f children, hmark, List.map_append]

theorem foundAmong_map (f : α → β) (bs : List (Branch α)) (c : Cursor) (taken : Nat) :
    foundAmong (mapAll f bs) c taken = (foundAmong bs c taken).map fun m => (f m.1, m.2) := by
  cases bs with
  | nil => rfl
  | cons b bs => rw [mapAll, foundAmong, foundAmong, found_map f b, foundAmong_map f bs,
      List.map_append]

end

end Branch

def TrieNode.map (f : α → β) (node : TrieNode α) : TrieNode β :=
  ⟨node.step, node.children, node.mark.map f⟩

namespace Rows

def map (f : α → β) (rows : Rows α) : Rows β := List.map (TrieNode.map f) rows

@[simp] theorem length_map (f : α → β) (rows : Rows α) : (rows.map f).length = rows.length := by
  simp [map]

@[simp] theorem getElem?_map (f : α → β) (rows : Rows α) (i : Nat) :
    (rows.map f)[i]? = (rows[i]?).map (TrieNode.map f) := by
  simp [map]

theorem stepOf_map (f : α → β) (rows : Rows α) (i : Nat) :
    ((rows.map f)[i]?).map TrieNode.step = (rows[i]?).map TrieNode.step := by
  rw [getElem?_map, Option.map_map]
  rfl

theorem modify_map (f : α → β) (g : TrieNode α → TrieNode α) (g' : TrieNode β → TrieNode β)
    (same : ∀ node, g' (node.map f) = (g node).map f) (rows : Rows α) (i : Nat) :
    List.modify (map f rows) i g' = map f (List.modify rows i g) := by
  induction rows generalizing i with
  | nil => cases i <;> rfl
  | cons node rows ih =>
    cases i with
    | zero => exact congrArg (· :: map f rows) (same node)
    | succ i => exact congrArg (node.map f :: ·) (ih i)

theorem child_map (f : α → β) (rows : Rows α) (parent : Nat) (s : Step) :
    (rows.map f).child parent s = ((rows.child parent s).1.map f, (rows.child parent s).2) := by
  unfold child
  rw [getElem?_map]
  cases rows[parent]? with
  | none => rfl
  | some node =>
    simp only [Option.map_some, TrieNode.map, stepOf_map, length_map]
    cases node.children.find? fun k => (rows[k]?).map TrieNode.step == some s with
    | some k => rfl
    | none =>
      have hleaf : rows.map f ++ [TrieNode.leaf s] = map f (rows ++ [TrieNode.leaf s]) := by
        simp [map, TrieNode.map, TrieNode.leaf]
      simp only [hleaf, modify_map f (·.addChild rows.length) (·.addChild rows.length) fun _ => rfl]

theorem childEach_map (f : α → β) (rows : Rows α) (s : Step) (tails : List Nat) :
    (rows.map f).childEach s tails =
      ((rows.childEach s tails).1.map f, (rows.childEach s tails).2) := by
  induction tails generalizing rows with
  | nil => rfl
  | cons i tails ih => simp only [childEach, child_map, ih]

theorem chain_map (f : α → β) (rows : Rows α) (tails : List Nat) (fragment : Fragment) :
    (rows.map f).chain tails fragment =
      ((rows.chain tails fragment).1.map f, (rows.chain tails fragment).2) := by
  induction fragment generalizing rows tails with
  | step s => simp only [chain, childEach_map]
  | empty => rfl
  | append first second ih₁ ih₂ => simp only [chain, ih₁, ih₂]
  | optional body ih => simp only [chain, ih]

theorem isTaken_map (f : α → β) (rows : Rows α) (ends : List Nat) :
    (rows.map f).isTaken ends = rows.isTaken ends := by
  unfold isTaken
  congr 1
  funext i
  rw [getElem?_map]
  cases rows[i]? with
  | none => rfl
  | some node => simp [TrieNode.map]

theorem setMarks_map (f : α → β) (rows : Rows α) (ends : List Nat) (mark : α) :
    ends.foldl (fun rows i => List.modify rows i (·.setMark (f mark))) (rows.map f) =
      map f (ends.foldl (fun rows i => List.modify rows i (·.setMark mark)) rows) := by
  induction ends generalizing rows with
  | nil => rfl
  | cons i ends ih =>
    rw [List.foldl_cons, List.foldl_cons, ← ih,
      modify_map f (·.setMark mark) (·.setMark (f mark)) fun _ => rfl]

theorem insert?_map (f : α → β) (rows : Rows α) (fragment : Fragment) (mark : α) :
    (rows.map f).insert? fragment (f mark) = (rows.insert? fragment mark).map (map f) := by
  unfold insert?
  simp only [chain_map, isTaken_map, setMarks_map]
  split <;> rfl

theorem branch_map (f : α → β) (rows : Rows α) (depth i : Nat) :
    (rows.map f).branch depth i = (rows.branch depth i).map f := by
  induction depth generalizing i with
  | zero => rfl
  | succ depth ih =>
    unfold branch
    rw [getElem?_map]
    cases rows[i]? with
    | none => rfl
    | some node =>
      have hchildren : (rows.map f).branch depth = fun k => (rows.branch depth k).map f := funext ih
      simp only [Option.map_some, Branch.map, TrieNode.map, Branch.mapAll_eq, List.map_map,
        Function.comp_def, hchildren]

def tree (rows : Rows α) : Branch α := rows.branch rows.length Trie.rootId

theorem tree_map (f : α → β) (rows : Rows α) : (rows.map f).tree = rows.tree.map f := by
  rw [tree, length_map, branch_map, tree]

end Rows

/-- The text from the cursor on falls into pieces, each of them the first match where it begins. -/
inductive Branch.Cuts (b : Branch α) : Cursor → List (α × List Char) → Prop
  | done {c : Cursor} (atEnd : c.ahead = []) : Cuts b c []
  | piece {c : Cursor} {mark : α} {n : Nat} {pieces : List (α × List Char)} (more : c.ahead ≠ [])
    (found : b.first? c 0 = some (mark, n)) (rest : Cuts b (c.advance n) pieces) :
    Cuts b c ((mark, c.ahead.take n) :: pieces)

/-- The text from the cursor on falls into pieces up to a place where there is no match. -/
inductive Branch.Stalls (b : Branch α) : Cursor → Cursor → Prop
  | here {c : Cursor} (more : c.ahead ≠ []) (blocked : b.first? c 0 = none) : Stalls b c c
  | piece {c d : Cursor} {mark : α} {n : Nat} (more : c.ahead ≠ [])
    (found : b.first? c 0 = some (mark, n)) (rest : Stalls b (c.advance n) d) : Stalls b c d

namespace Lexicon

variable {τ : Type}

/-- The lexicon has the fragments of a trie, and reads their marks in this way. -/
def Reads (l : Lexicon τ) (rows : Rows α) (reading : α → Reading τ) : Prop :=
  l.trie.rows = rows.map reading

theorem walk_eq {l : Lexicon τ} {rows : Rows α} {reading : α → Reading τ}
    (reads : l.Reads rows reading) (c : Cursor) :
    (l.trie.walk Trie.rootId c 0).map (fun m => (m.mark, m.length)) =
      (rows.tree.found c 0).map fun m => (reading m.1, m.2) := by
  rw [Trie.walk_eq l.trie (Nat.le_refl (l.trie.rows.length + Trie.rootId)) c 0,
    ← Branch.found_map, ← Rows.tree_map, ← reads]
  rfl

theorem next?_eq {l : Lexicon τ} {rows : Rows α} {reading : α → Reading τ}
    (reads : l.Reads rows reading) (c : Cursor) :
    (l.next? c).map (fun m => (m.mark, m.length)) =
      (rows.tree.first? c 0).map fun m => (reading m.1, m.2) := by
  have hwalk := congrArg (List.find? fun m => decide (0 < m.2)) (walk_eq reads c)
  rw [List.find?_map, List.find?_map] at hwalk
  rw [next?, Trie.matchesAt, List.head?_filter, Branch.first?_eq]
  exact hwalk

theorem next?_eq_none_iff {l : Lexicon τ} {rows : Rows α} {reading : α → Reading τ}
    (reads : l.Reads rows reading) {c : Cursor} :
    l.next? c = none ↔ rows.tree.first? c 0 = none := by
  have hnext := next?_eq reads c
  rw [← Option.map_eq_none_iff, hnext, Option.map_eq_none_iff]

theorem next?_eq_some {l : Lexicon τ} {rows : Rows α} {reading : α → Reading τ}
    (reads : l.Reads rows reading) {c : Cursor} {m : Match (Reading τ)} (h : l.next? c = some m) :
    ∃ mark, rows.tree.first? c 0 = some (mark, m.length) := by
  have hnext := next?_eq reads c
  rw [h] at hnext
  obtain ⟨⟨mark, n⟩, hfound, hlength⟩ := Option.map_eq_some_iff.1 hnext.symm
  obtain ⟨_, rfl⟩ := Prod.mk.inj hlength
  exact ⟨mark, hfound⟩

def readAll (reading : α → Reading τ) (pieces : List (α × List Char)) : List τ :=
  pieces.flatMap fun p => (reading p.1 p.2).toList

theorem scanFrom_of_cuts {l : Lexicon τ} {rows : Rows α} {reading : α → Reading τ}
    (reads : l.Reads rows reading) {c : Cursor} {pieces : List (α × List Char)}
    (cuts : rows.tree.Cuts c pieces) : l.scanFrom c = .ok (readAll reading pieces) := by
  induction cuts with
  | done h =>
    rw [scanFrom, dif_pos h]
    rfl
  | @piece c mark n pieces hmore hfound _ ih =>
    have hnext := next?_eq reads c
    rw [hfound] at hnext
    obtain ⟨m, hm, hmark⟩ := Option.map_eq_some_iff.1 hnext
    simp only [Prod.mk.injEq] at hmark
    obtain ⟨hreading, hlength⟩ := hmark
    rw [scanFrom, dif_neg hmore]
    split
    · rename_i h
      rw [h] at hm
      cases hm
    · rename_i m' h
      rw [h] at hm
      cases hm
      rw [hlength, ih, hreading]
      rfl

theorem cuts_of_scanFrom {l : Lexicon τ} {rows : Rows α} {reading : α → Reading τ}
    (reads : l.Reads rows reading) {c : Cursor} {tokens : List τ} (h : l.scanFrom c = .ok tokens) :
    ∃ pieces, rows.tree.Cuts c pieces := by
  induction hn : c.ahead.length using Nat.strongRecOn generalizing c tokens with
  | _ n ih =>
    rw [scanFrom] at h
    split at h
    · rename_i hend
      exact ⟨[], .done hend⟩
    · rename_i hmore
      split at h
      · cases h
      · rename_i m hm
        obtain ⟨mark, hfound⟩ := next?_eq_some reads hm
        split at h
        · cases h
        · rename_i rest hrest
          obtain ⟨pieces, hpieces⟩ := ih _
            (hn ▸ Cursor.length_ahead_advance_lt hmore (length_pos_of_next? hm)) hrest rfl
          exact ⟨_, .piece hmore hfound hpieces⟩

theorem scan_eq_ok_iff {l : Lexicon τ} {rows : Rows α} {reading : α → Reading τ}
    (reads : l.Reads rows reading) {text : String} {tokens : List τ} :
    l.scan text = .ok tokens ↔
      ∃ pieces, rows.tree.Cuts (.start text.toList) pieces ∧ tokens = readAll reading pieces := by
  unfold scan
  constructor
  · intro h
    split at h
    · rename_i scanned hscan
      cases h
      obtain ⟨pieces, hpieces⟩ := cuts_of_scanFrom reads hscan
      rw [scanFrom_of_cuts reads hpieces] at hscan
      cases hscan
      exact ⟨pieces, hpieces, rfl⟩
    · cases h
  · rintro ⟨pieces, hpieces, rfl⟩
    rw [scanFrom_of_cuts reads hpieces]

theorem scanFrom_eq_error_iff {l : Lexicon τ} {rows : Rows α} {reading : α → Reading τ}
    (reads : l.Reads rows reading) {c d : Cursor} :
    l.scanFrom c = .error d ↔ rows.tree.Stalls c d := by
  constructor
  · intro h
    induction hn : c.ahead.length using Nat.strongRecOn generalizing c with
    | _ n ih =>
      rw [scanFrom] at h
      split at h
      · cases h
      · rename_i hmore
        split at h
        · rename_i hnone
          cases h
          exact .here hmore ((next?_eq_none_iff reads).1 hnone)
        · rename_i m hm
          obtain ⟨mark, hfound⟩ := next?_eq_some reads hm
          split at h
          · rename_i hrest
            cases h
            exact .piece hmore hfound (ih _
              (hn ▸ Cursor.length_ahead_advance_lt hmore (length_pos_of_next? hm)) hrest rfl)
          · cases h
  · intro h
    induction h with
    | here hmore hblocked =>
      have hnone := (next?_eq_none_iff reads).2 hblocked
      rw [scanFrom, dif_neg hmore]
      split
      · rfl
      · rename_i h
        rw [hnone] at h
        cases h
    | @piece c d mark n hmore hfound _ ih =>
      rw [scanFrom, dif_neg hmore]
      split
      · rename_i h
        rw [next?_eq_none_iff reads, hfound] at h
        cases h
      · rename_i m h
        obtain ⟨mark', hfound'⟩ := next?_eq_some reads h
        rw [hfound] at hfound'
        cases hfound'
        rw [ih]

theorem scan_eq_error_iff {l : Lexicon τ} {rows : Rows α} {reading : α → Reading τ}
    (reads : l.Reads rows reading) {text : String} {e : ParseError} :
    l.scan text = .error e ↔
      ∃ d, rows.tree.Stalls (.start text.toList) d ∧ e = ⟨text, d.index, d.ahead.headD ' '⟩ := by
  simp only [← scanFrom_eq_error_iff reads, scan]
  cases l.scanFrom (.start text.toList) with
  | ok tokens => simp
  | error d => simp [eq_comm]

end Lexicon

end FormulaEngine
