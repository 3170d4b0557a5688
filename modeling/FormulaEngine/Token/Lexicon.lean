import FormulaEngine.Error
import FormulaEngine.Token.Trie

/-!
# Lexicons

A lexicon says which texts are tokens and what each of them is read as. At every place the first
match that the walk of the trie records is taken, so the order of the entries decides, not the
length of the match.
-/
namespace FormulaEngine

/-- What the text of a token is read as; some tokens, such as blanks, are read as nothing. -/
abbrev Reading (τ : Type) := List Char → Option τ

structure Lexicon (τ : Type) where
  trie : Trie (Reading τ)

namespace Lexicon

variable {τ : Type}

def empty : Lexicon τ := ⟨.empty⟩

def size (l : Lexicon τ) : Nat := l.trie.size

/-- The fragment can be empty, or ends where an earlier one ends. -/
def isTaken (t : Trie (Reading τ)) (ends : List Nat) : Bool :=
  ends.any fun i => i == Trie.rootId || (t.markOf? i).isSome

/--
Adds an entry. A fragment that conflicts with an earlier entry is refused; the nodes it needed stay,
without a mark.
-/
def add (l : Lexicon τ) (f : Fragment) (reading : Reading τ) : Lexicon τ × Option Conflict :=
  let (t, ends) := l.trie.chain [Trie.rootId] f
  if isTaken t ends then (⟨t⟩, some ⟨f.text⟩)
  else (⟨ends.foldl (fun t i => t.setMark i reading) t⟩, none)

def addBlanks (l : Lexicon τ) : Lexicon τ × Option Conflict := l.add .blanks fun _ => none

def next? (l : Lexicon τ) (c : Cursor) : Option (Match (Reading τ)) := (l.trie.matchesAt c).head?

theorem length_pos_of_next? {l : Lexicon τ} {c : Cursor} {m : Match (Reading τ)}
    (h : l.next? c = some m) : 0 < m.length :=
  Trie.length_pos_of_mem_matchesAt (List.mem_of_head? h)

/-- Reads tokens up to the end of the text; fails with the place where no token starts. -/
def scanFrom (l : Lexicon τ) (c : Cursor) : Except Cursor (List τ) :=
  if _more : c.ahead = [] then .ok []
  else
    match _found : l.next? c with
    | none => .error c
    | some m =>
      match l.scanFrom (c.advance m.length) with
      | .error d => .error d
      | .ok tokens => .ok ((m.mark (c.ahead.take m.length)).toList ++ tokens)
termination_by c.ahead.length
decreasing_by exact Cursor.length_ahead_advance_lt _more (length_pos_of_next? _found)

def scan (l : Lexicon τ) (text : String) : Except ParseError (List τ) :=
  match l.scanFrom (.start text.toList) with
  | .ok tokens => .ok tokens
  | .error c => .error ⟨text, c.index, c.ahead.headD ' '⟩

end Lexicon

end FormulaEngine
