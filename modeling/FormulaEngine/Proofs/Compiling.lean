import FormulaEngine.Formula.Basic
import FormulaEngine.Proofs.Execution
import FormulaEngine.Proofs.Registration

/-!
# Compiling

What a text is compiled to, computed with the trie of the language written out. Every grammar of the
language computes the same, whatever rules it was made from.
-/
namespace FormulaEngine

open Formula

namespace Branch

variable {α : Type}

/-- The pieces that the text from the cursor on falls into, or the place where there is no match.
Every piece has a character at least, so that no more steps are taken than there are characters. -/
def cutFrom (b : Branch α) : (steps : Nat) → Cursor → Except Cursor (List (α × List Char))
  | 0, c => if c.ahead = [] then .ok [] else .error c
  | steps + 1, c =>
    if c.ahead = [] then .ok []
    else
      match b.first? c 0 with
      | none => .error c
      | some (mark, n) => (cutFrom b steps (c.advance n)).map ((mark, c.ahead.take n) :: ·)

theorem cuts_of_cutFrom {b : Branch α} {steps : Nat} {c : Cursor}
    {pieces : List (α × List Char)} (h : b.cutFrom steps c = .ok pieces) : b.Cuts c pieces := by
  induction steps generalizing c pieces with
  | zero =>
    rw [cutFrom] at h
    split at h
    · rename_i hend
      cases h
      exact .done hend
    · cases h
  | succ steps ih =>
    rw [cutFrom] at h
    split at h
    · rename_i hend
      cases h
      exact .done hend
    · rename_i hmore
      split at h
      · cases h
      · rename_i mark n hfound
        obtain ⟨rest, hrest, rfl⟩ := map_eq_ok.1 h
        exact .piece hmore hfound (ih hrest)

theorem cutFrom_of_cuts {b : Branch α} {steps : Nat} {c : Cursor} {pieces : List (α × List Char)}
    (enough : c.ahead.length ≤ steps) (h : b.Cuts c pieces) : b.cutFrom steps c = .ok pieces := by
  induction h generalizing steps with
  | done atEnd => cases steps <;> rw [cutFrom, if_pos atEnd]
  | @piece c mark n pieces more found _ ih =>
    have hshorter : (c.advance n).ahead.length < c.ahead.length :=
      Cursor.length_ahead_advance_lt more (pos_of_first? b found)
    cases steps with
    | zero => omega
    | succ steps =>
      rw [cutFrom, if_neg more, found]
      dsimp only
      rw [ih (by omega)]
      rfl

theorem stalls_of_cutFrom {b : Branch α} {steps : Nat} {c d : Cursor}
    (enough : c.ahead.length ≤ steps) (h : b.cutFrom steps c = .error d) : b.Stalls c d := by
  induction steps generalizing c with
  | zero =>
    have hend : c.ahead = [] := List.length_eq_zero_iff.1 (Nat.le_zero.1 enough)
    rw [cutFrom, if_pos hend] at h
    cases h
  | succ steps ih =>
    rw [cutFrom] at h
    split at h
    · cases h
    · rename_i hmore
      split at h
      · rename_i hblocked
        cases h
        exact .here hmore hblocked
      · rename_i mark n hfound
        cases hrest : b.cutFrom steps (c.advance n) with
        | ok rest =>
          rw [hrest] at h
          cases h
        | error d' =>
          rw [hrest] at h
          cases h
          have hshorter : (c.advance n).ahead.length < c.ahead.length :=
            Cursor.length_ahead_advance_lt hmore (pos_of_first? b hfound)
          exact .piece hmore hfound (ih (by omega) hrest)

end Branch

namespace Formula

section

variable {V : Type} [Operand V]

def compileAs (ignoreBlanks : Bool) (i : Interpretation V) (text : String) :
    Except ParseError (Program V) :=
  match (Entry.tree ignoreBlanks).cutFrom text.toList.length (.start text.toList) with
  | .error d => .error ⟨text, d.index, d.ahead.headD ' '⟩
  | .ok pieces =>
    .ok ⟨toPostfix (some (i.binaryOperator .list)) ((Entry.readAll pieces).map (Word.token i)),
      text⟩

theorem compile_eq_compileAs {g : Grammar V} {ignoreBlanks : Bool} {i : Interpretation V}
    (speaks : g.Speaks ignoreBlanks i) (text : String) :
    g.compile text = compileAs ignoreBlanks i text := by
  rw [compileAs]
  split
  · rename_i d hstalls
    exact speaks.compile_eq_error_iff.2 ⟨d, Branch.stalls_of_cutFrom (Nat.le_refl _) hstalls, rfl⟩
  · rename_i pieces hcuts
    exact speaks.compile_eq_ok_iff.2 ⟨pieces, Branch.cuts_of_cutFrom hcuts, rfl⟩

end

theorem parse_eq_compileAs (o : Options) (text : String) :
    parse o text =
      if Text.isBlankText text then .ok .empty
      else
        ((compileAs o.ignoreBlanks (arithmetic o.strict) text).map .formula).mapError .parse := by
  obtain ⟨g, hbuild, hspeaks⟩ := exists_grammar o (arithmetic o.strict)
  simp only [parse, grammar, hbuild, compile_eq_compileAs hspeaks]
  cases compileAs o.ignoreBlanks (arithmetic o.strict) text <;> rfl

theorem symbol_eq_ok_iff {o : Options} {g : Grammar Symbol} {text : String} {s : Symbol}
    (built : symbolGrammar o = .ok g) :
    symbol o text = .ok s ↔
      ∃ p, g.compile text = .ok p ∧ p.evaluate [Symbol.resolver] = .ok s := by
  simp only [symbol, built]
  cases g.compile text with
  | error e => simp
  | ok p => cases h : p.evaluate [Symbol.resolver] <;> simp [h]

theorem symbol_eq_compileAs (o : Options) (text : String) :
    symbol o text =
      ((compileAs o.ignoreBlanks Symbol.writing text).mapError fun e => ⟨text, .parse e⟩).bind
        fun p => (p.evaluate [Symbol.resolver]).mapError fun e => ⟨text, .resolve e⟩ := by
  obtain ⟨g, hbuild, hspeaks⟩ := exists_symbolGrammar o
  simp only [symbol, hbuild, compile_eq_compileAs hspeaks]
  cases compileAs o.ignoreBlanks Symbol.writing text with
  | error e => rfl
  | ok p =>
    dsimp only
    change _ = (p.evaluate [Symbol.resolver]).mapError fun e => Report.mk text (.resolve e)
    cases p.evaluate [Symbol.resolver] <;> rfl

end Formula

theorem toOption_eq_some {ε α : Type} {x : Except ε α} {a : α} :
    x.toOption = some a ↔ x = .ok a := by
  cases x <;> simp [Except.toOption]

end FormulaEngine
