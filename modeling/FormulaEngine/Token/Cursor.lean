/-!
# Cursors

A place in a text: the characters behind it, the nearest one first, and those ahead of it.
-/
namespace FormulaEngine

structure Cursor where
  behind : List Char
  ahead : List Char
  deriving DecidableEq, Repr

namespace Cursor

def start (text : List Char) : Cursor := ⟨[], text⟩

def index (c : Cursor) : Nat := c.behind.length

def text (c : Cursor) : List Char := c.behind.reverse ++ c.ahead

def advance (c : Cursor) : Nat → Cursor
  | 0 => c
  | n + 1 =>
    match c with
    | ⟨_, []⟩ => c
    | ⟨behind, x :: ahead⟩ => advance ⟨x :: behind, ahead⟩ n

theorem advance_eq (c : Cursor) (n : Nat) :
    c.advance n = ⟨(c.ahead.take n).reverse ++ c.behind, c.ahead.drop n⟩ := by
  induction n generalizing c with
  | zero => simp [advance]
  | succ n ih =>
    obtain ⟨behind, ahead⟩ := c
    cases ahead with
    | nil => simp [advance]
    | cons x ahead => simp [advance, ih]

@[simp] theorem text_start (cs : List Char) : (start cs).text = cs := by simp [start, text]

@[simp] theorem text_advance (c : Cursor) (n : Nat) : (c.advance n).text = c.text := by
  simp [advance_eq, text]

theorem length_ahead_advance_lt {c : Cursor} {n : Nat} (hc : c.ahead ≠ []) (hn : 0 < n) :
    (c.advance n).ahead.length < c.ahead.length := by
  have := List.length_pos_iff.2 hc
  simp only [advance_eq, List.length_drop]
  omega

end Cursor

end FormulaEngine
