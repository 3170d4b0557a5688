import FormulaEngine.Arena
import FormulaEngine.Token.Fragment

/-!
# Tries of fragments

Fragments that begin alike share their first nodes. A walk from a node records the matches below
the node before its own one, and those below an earlier child before those below a later one.
Nodes refer to their children by place, and a child always has a later place than its parent, so
every walk ends.
-/
namespace FormulaEngine

structure TrieNode (α : Type) where
  step : Step
  children : List Nat
  /-- What a fragment that ends here stands for. -/
  mark : Option α

structure Trie (α : Type) where
  nodes : Arena (TrieNode α)
  ordered : ∀ i node, nodes.get? i = some node → ∀ k ∈ node.children, i < k ∧ k < nodes.size

/-- A node with a mark that was completed, and the number of characters that were taken on the
way. -/
structure Match (α : Type) where
  mark : α
  node : Nat
  length : Nat

namespace TrieNode

variable {α : Type}

def leaf (s : Step) : TrieNode α := ⟨s, [], none⟩

def addChild (node : TrieNode α) (k : Nat) : TrieNode α :=
  { node with children := node.children ++ [k] }

def setMark (node : TrieNode α) (mark : α) : TrieNode α := { node with mark := some mark }

def completed (node : TrieNode α) (i : Nat) (length : Nat) : List (Match α) :=
  match node.mark with
  | some mark => [⟨mark, i, length⟩]
  | none => []

end TrieNode

namespace Trie

variable {α : Type}

def rootId : Nat := 0

def empty : Trie α where
  nodes := (Arena.empty.alloc (.leaf .root)).1
  ordered := by
    intro i node h k hk
    rw [Arena.get?_alloc] at h
    split at h
    · simp only [Option.some.injEq] at h
      subst h
      simp [TrieNode.leaf] at hk
    · simp [Arena.get?, Arena.empty] at h

def size (t : Trie α) : Nat := t.nodes.size

def childrenOf (t : Trie α) (i : Nat) : List Nat :=
  match t.nodes.get? i with
  | some node => node.children
  | none => []

def stepOf? (t : Trie α) (i : Nat) : Option Step := (t.nodes.get? i).map TrieNode.step

def markOf? (t : Trie α) (i : Nat) : Option α := (t.nodes.get? i).bind TrieNode.mark

def grow (t : Trie α) (parent : Nat) (s : Step) (h : parent < t.nodes.size) : Trie α where
  nodes := (t.nodes.alloc (.leaf s)).1.modify parent (·.addChild t.nodes.size)
  ordered := by
    intro i node hi k hk
    simp only [Arena.size_modify, Arena.size_alloc]
    rw [Arena.get?_modify, Arena.get?_alloc] at hi
    by_cases hp : parent = i
    · rw [if_pos hp, if_neg (by omega)] at hi
      obtain ⟨old, ho, rfl⟩ := Option.map_eq_some_iff.1 hi
      simp only [TrieNode.addChild, List.mem_append, List.mem_singleton] at hk
      rcases hk with hk | rfl
      · have := t.ordered i old ho k hk
        omega
      · omega
    · rw [if_neg hp] at hi
      by_cases hs : i = t.nodes.size
      · rw [if_pos hs] at hi
        simp only [Option.some.injEq] at hi
        subst hi
        simp [TrieNode.leaf] at hk
      · rw [if_neg hs] at hi
        have := t.ordered i node hi k hk
        omega

/-- The child of `parent` that makes the step `s`, which is added unless it is there already. -/
def child (t : Trie α) (parent : Nat) (s : Step) : Trie α × Nat :=
  match (t.childrenOf parent).find? (fun k => t.stepOf? k == some s) with
  | some k => (t, k)
  | none => if h : parent < t.nodes.size then (t.grow parent s h, t.nodes.size) else (t, parent)

def setMark (t : Trie α) (i : Nat) (mark : α) : Trie α where
  nodes := t.nodes.modify i (·.setMark mark)
  ordered := by
    intro j node hj k hk
    rw [Arena.get?_modify] at hj
    simp only [Arena.size_modify]
    split at hj
    · obtain ⟨old, ho, rfl⟩ := Option.map_eq_some_iff.1 hj
      exact t.ordered j old ho k hk
    · exact t.ordered j node hj k hk

def childEach (t : Trie α) (s : Step) : List Nat → Trie α × List Nat
  | [] => (t, [])
  | i :: is =>
    let (t, k) := t.child i s
    let (t, ks) := t.childEach s is
    (t, k :: ks)

def distinct : List Nat → List Nat
  | [] => []
  | i :: is => i :: (distinct is).filter (· != i)

/-- Adds a fragment below each of the nodes `tails`; answers the nodes where it can end. -/
def chain (t : Trie α) (tails : List Nat) : Fragment → Trie α × List Nat
  | .step s =>
    let (t, ends) := t.childEach s tails
    (t, distinct ends)
  | .empty => (t, tails)
  | .append first second =>
    let (t, ends) := t.chain tails first
    t.chain ends second
  | .optional body =>
    let (t, ends) := t.chain tails body
    (t, distinct (tails ++ ends))

/-- All completed matches of the subtree of a node, in the order of the walk. On the way to the node
`taken` characters were taken, which brought the cursor to `c`. -/
def walk (t : Trie α) (i : Nat) (c : Cursor) (taken : Nat) : List (Match α) :=
  match _found : t.nodes.get? i with
  | none => []
  | some node =>
    match node.step.advance c with
    | .blocked => []
    | .reached n =>
      (node.children.attach.flatMap fun k => t.walk k.1 (c.advance n) (taken + n)) ++
        node.completed i (taken + n)
    | .exhausted n => node.completed i (taken + n)
termination_by t.nodes.size - i
decreasing_by
  have := t.ordered i node _found k.1 k.2
  omega

/-- The matches at a place; a match that takes nothing does not count. -/
def matchesAt (t : Trie α) (c : Cursor) : List (Match α) :=
  (t.walk rootId c 0).filter fun m => 0 < m.length

theorem length_pos_of_mem_matchesAt {t : Trie α} {c : Cursor} {m : Match α}
    (h : m ∈ t.matchesAt c) : 0 < m.length := by
  simpa using (List.mem_filter.1 h).2

end Trie

end FormulaEngine
