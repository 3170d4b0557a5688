import FormulaEngine.Proofs.Denotation
import FormulaEngine.Proofs.Paths
import Mathlib.Data.List.Chain

/-!
# Boundaries

The places of a text where one token ends and the next one begins. They say all that the reading of
a text comes to: its tokens, or the place where there is none.
-/
namespace FormulaEngine

theorem Trie.markOf?_of_mem_matchesAt {α : Type} {t : Trie α} {c : Cursor} {m : Match α}
    (h : m ∈ t.matchesAt c) : t.markOf? m.node = some m.mark ∧ m.length ≤ c.ahead.length := by
  have hwalk : m ∈ t.walk rootId c 0 := (List.mem_filter.1 h).1
  cases hroot : t.stepOf? rootId with
  | none =>
    have hnode : t.nodes.get? rootId = none := Option.map_eq_none_iff.1 hroot
    rw [walk] at hwalk
    split at hwalk
    · cases hwalk
    · rename_i hfound
      rw [hnode] at hfound
      cases hfound
  | some s =>
    obtain ⟨steps, n, _, hmark, hsteps, hlength⟩ := (mem_walk_iff hroot).1 hwalk
    refine ⟨hmark, ?_⟩
    rw [hlength, Nat.zero_add]
    exact hsteps.le_length_ahead

namespace Cursor

def ofIndex (text : List Char) (b : Nat) : Cursor := ⟨(text.take b).reverse, text.drop b⟩

theorem ofIndex_index (c : Cursor) : ofIndex c.text c.index = c := by
  obtain ⟨behind, ahead⟩ := c
  simp [ofIndex, text, index]

theorem index_le_length_text (c : Cursor) : c.index ≤ c.text.length := by
  rw [length_text]
  exact Nat.le_add_right _ _

end Cursor

def stretch (text : List Char) (b b' : Nat) : List Char := (text.drop b).take (b' - b)

theorem stretch_append (text : List Char) {b b' b'' : Nat} (h : b ≤ b') (h' : b' ≤ b'') :
    stretch text b b' ++ stretch text b' b'' = stretch text b b'' := by
  have hdrop : text.drop b' = (text.drop b).drop (b' - b) := by
    rw [List.drop_drop, Nat.add_sub_cancel' h]
  have hlength : b'' - b = (b' - b) + (b'' - b') := by omega
  rw [stretch, stretch, stretch, hlength, List.take_add, hdrop]

theorem stretch_self (text : List Char) (b : Nat) : stretch text b b = [] := by
  rw [stretch, Nat.sub_self, List.take_zero]

theorem Cursor.stretch_text (c : Cursor) (n : Nat) :
    stretch c.text c.index (c.index + n) = c.ahead.take n := by
  rw [stretch, Nat.add_sub_cancel_left, ← Nat.add_zero c.index, drop_text, List.drop_zero]

/-- What is made of each two neighbours in a list. -/
def betweenEach {α β : Type} (f : α → α → β) : List α → List β
  | a :: b :: l => f a b :: betweenEach f (b :: l)
  | _ => []

theorem betweenEach_cons_cons {α β : Type} (f : α → α → β) (a b : α) (l : List α) :
    betweenEach f (a :: b :: l) = f a b :: betweenEach f (b :: l) := rfl

namespace Lexicon

variable {τ : Type}

/-- The first match at a place ends at the other one, which is behind it. -/
def Spans (l : Lexicon τ) (text : List Char) (b b' : Nat) : Prop :=
  b < b' ∧ ∃ m, (l.trie.matchesAt (.ofIndex text b)).head? = some m ∧ b + m.length = b'

/-- What the text between two places is read as by the node of the first match. -/
def tokenBetween? (l : Lexicon τ) (text : List Char) (b b' : Nat) : Option τ :=
  (l.trie.matchesAt (.ofIndex text b)).head?.bind fun m =>
    (l.trie.markOf? m.node).bind fun reading => reading (stretch text b b')

def tokensBetween (l : Lexicon τ) (text : List Char) (bounds : List Nat) : List τ :=
  (betweenEach (l.tokenBetween? text) bounds).reduceOption

theorem tokenBetween?_of_next? {l : Lexicon τ} {c : Cursor} {m : Match (Reading τ)}
    (found : l.next? c = some m) :
    l.tokenBetween? c.text c.index (c.index + m.length) = m.mark (c.ahead.take m.length) := by
  have hfirst : (l.trie.matchesAt c).head? = some m := found
  have hmark := (Trie.markOf?_of_mem_matchesAt (List.mem_of_head? found)).1
  rw [tokenBetween?, Cursor.ofIndex_index, hfirst, Option.bind_some, hmark, Option.bind_some,
    Cursor.stretch_text]

theorem scanFrom_end {l : Lexicon τ} {c : Cursor} (atEnd : c.ahead = []) :
    l.scanFrom c = .ok [] := by
  rw [scanFrom, dif_pos atEnd]

theorem scanFrom_stuck {l : Lexicon τ} {c : Cursor} (more : c.ahead ≠ [])
    (blocked : l.next? c = none) : l.scanFrom c = .error c := by
  rw [scanFrom, dif_neg more]
  split
  · rfl
  · rename_i h
    rw [blocked] at h
    cases h

theorem scanFrom_match {l : Lexicon τ} {c : Cursor} {m : Match (Reading τ)} (more : c.ahead ≠ [])
    (found : l.next? c = some m) :
    l.scanFrom c = (l.scanFrom (c.advance m.length)).map
      fun tokens => (m.mark (c.ahead.take m.length)).toList ++ tokens := by
  rw [scanFrom, dif_neg more]
  split
  · rename_i h
    rw [found] at h
    cases h
  · rename_i m' h
    rw [found] at h
    cases h
    cases l.scanFrom (c.advance m.length) <;> rfl

/-- What the scan from a place comes to is said by its boundaries. -/
structure Bounded (l : Lexicon τ) (c : Cursor) (later : List Nat) (last : Nat) : Prop where
  isChain : (c.index :: later).IsChain (l.Spans c.text)
  getLast?_eq : (c.index :: later).getLast? = some last
  index_le : c.index ≤ last
  le_length : last ≤ c.text.length
  flatten_eq : (betweenEach (stretch c.text) (c.index :: later)).flatten =
    stretch c.text c.index last
  scanFrom_of_eq : last = c.text.length →
    l.scanFrom c = .ok (l.tokensBetween c.text (c.index :: later))
  scanFrom_of_ne : last ≠ c.text.length →
    l.trie.matchesAt (.ofIndex c.text last) = [] ∧ l.scanFrom c = .error (.ofIndex c.text last)

theorem bounded_end (l : Lexicon τ) {c : Cursor} (atEnd : c.ahead = []) :
    l.Bounded c [] c.index where
  isChain := .singleton _
  getLast?_eq := rfl
  index_le := Nat.le_refl _
  le_length := c.index_le_length_text
  flatten_eq := (stretch_self _ _).symm
  scanFrom_of_eq _ := scanFrom_end atEnd
  scanFrom_of_ne h := by
    rw [Cursor.length_text, atEnd] at h
    exact absurd rfl h

theorem bounded_stuck {l : Lexicon τ} {c : Cursor} (more : c.ahead ≠ [])
    (blocked : l.next? c = none) : l.Bounded c [] c.index where
  isChain := .singleton _
  getLast?_eq := rfl
  index_le := Nat.le_refl _
  le_length := c.index_le_length_text
  flatten_eq := (stretch_self _ _).symm
  scanFrom_of_eq h := by
    rw [Cursor.length_text] at h
    have hahead : c.ahead.length = 0 := by omega
    exact absurd (List.length_eq_zero_iff.1 hahead) more
  scanFrom_of_ne _ := by
    rw [Cursor.ofIndex_index]
    exact ⟨List.head?_eq_none_iff.1 blocked, scanFrom_stuck more blocked⟩

/-- The step: the end of the first match is the boundary before those from there on. -/
theorem Bounded.cons {l : Lexicon τ} {c : Cursor} {m : Match (Reading τ)} {later : List Nat}
    {last : Nat} (more : c.ahead ≠ []) (found : l.next? c = some m)
    (rest : l.Bounded (c.advance m.length) later last) :
    l.Bounded c ((c.index + m.length) :: later) last := by
  have hmem : m ∈ l.trie.matchesAt c := List.mem_of_head? found
  have hpos : 0 < m.length := Trie.length_pos_of_mem_matchesAt hmem
  have hindex : (c.advance m.length).index = c.index + m.length :=
    Cursor.index_advance (Trie.markOf?_of_mem_matchesAt hmem).2
  obtain ⟨hchain, hlast, hle, hbound, hflatten, hok, herror⟩ := rest
  rw [Cursor.text_advance] at hchain hbound hflatten hok herror
  rw [hindex] at hchain hlast hle hflatten hok
  constructor
  · refine .cons_cons ⟨by omega, m, ?_, rfl⟩ hchain
    rw [Cursor.ofIndex_index]
    exact found
  · rwa [List.getLast?_cons_cons]
  · omega
  · exact hbound
  · rw [betweenEach_cons_cons, List.flatten_cons, hflatten]
    exact stretch_append _ (by omega) hle
  · intro h
    rw [scanFrom_match more found, hok h]
    rw [tokensBetween, tokensBetween, betweenEach_cons_cons, tokenBetween?_of_next? found]
    cases m.mark (c.ahead.take m.length) <;> rfl
  · intro h
    obtain ⟨hnone, hscan⟩ := herror h
    rw [scanFrom_match more found, hscan]
    exact ⟨hnone, rfl⟩

theorem exists_bounded (l : Lexicon τ) (c : Cursor) : ∃ later last, l.Bounded c later last := by
  induction hn : c.ahead.length using Nat.strongRecOn generalizing c with
  | _ n ih =>
    by_cases more : c.ahead = []
    · exact ⟨[], c.index, l.bounded_end more⟩
    · cases found : l.next? c with
      | none => exact ⟨[], c.index, bounded_stuck more found⟩
      | some m =>
        have hless := Cursor.length_ahead_advance_lt more (length_pos_of_next? found)
        obtain ⟨later, last, hrest⟩ := ih _ (hn ▸ hless) _ rfl
        exact ⟨_, last, hrest.cons more found⟩

/-- A text is read once, from the left to the right: it falls into stretches that are the first
matches where they begin, and these are the tokens, or stop at the place where there is no match. -/
theorem scan_eq_between (l : Lexicon τ) (text : String) :
    ∃ bounds last, bounds.head? = some 0 ∧ bounds.getLast? = some last ∧
      bounds.IsChain (l.Spans text.toList) ∧ last ≤ text.toList.length ∧
      (last = text.toList.length →
        l.scan text = .ok (l.tokensBetween text.toList bounds) ∧
          (betweenEach (stretch text.toList) bounds).flatten = text.toList) ∧
      (last ≠ text.toList.length →
        l.trie.matchesAt (.ofIndex text.toList last) = [] ∧
          (betweenEach (stretch text.toList) bounds).flatten = text.toList.take last ∧
          ∃ c, text.toList[last]? = some c ∧ l.scan text = .error ⟨text, last, c⟩) := by
  obtain ⟨later, last, h⟩ := l.exists_bounded (.start text.toList)
  obtain ⟨hchain, hlast, -, hbound, hflatten, hok, herror⟩ := h
  rw [Cursor.text_start] at hchain hbound hflatten hok herror
  have hflatten : (betweenEach (stretch text.toList) (0 :: later)).flatten =
      text.toList.take last := hflatten
  refine ⟨0 :: later, last, rfl, hlast, hchain, hbound, ?_, ?_⟩
  · intro h
    constructor
    · rw [scan, hok h]
      rfl
    · rw [hflatten, h, List.take_length]
  · intro h
    obtain ⟨hnone, hscan⟩ := herror h
    have hless : last < text.toList.length := by omega
    refine ⟨hnone, hflatten, text.toList[last], List.getElem?_eq_getElem hless, ?_⟩
    have hplace : (Cursor.ofIndex text.toList last).index = last := by
      simp only [Cursor.index, Cursor.ofIndex, List.length_reverse, List.length_take]
      omega
    have hahead : (Cursor.ofIndex text.toList last).ahead.headD ' ' = text.toList[last] := by
      rw [Cursor.ofIndex, List.drop_eq_getElem_cons hless]
      rfl
    rw [scan, hscan]
    simp only [hplace, hahead]

end Lexicon

end FormulaEngine
