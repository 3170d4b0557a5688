import FormulaEngine.Proofs.Agreement
import FormulaEngine.Proofs.Denotation

/-!
# Diagnostics

Where the reports of parse errors point. The place is found by counting the characters that were
read, and it is shown by counting bytes; both lead to the character that no token starts with.
-/
namespace FormulaEngine

open Formula

section Bytes

theorem byteLength_append (first second : List Char) :
    byteLength (first ++ second) = byteLength first + byteLength second := by
  induction first with
  | nil => exact (Nat.zero_add _).symm
  | cons c first ih =>
    change c.utf8Size + byteLength (first ++ second) = c.utf8Size + byteLength first + _
    rw [ih, Nat.add_assoc]

theorem byteLength_eq (cs : List Char) : byteLength cs = (String.ofList cs).utf8ByteSize := by
  induction cs with
  | nil => rfl
  | cons c cs ih =>
    rw [← List.singleton_append, byteLength_append, ih, String.ofList_append,
      String.utf8ByteSize_append, ← String.singleton_eq_ofList, String.utf8ByteSize_singleton]
    rfl

end Bytes

/-- The report says where in the text the character is that the error is about. -/
structure Report.PointsAt (r : Report) (text : String) (e : ParseError) : Prop where
  source_eq : r.source = text
  text_eq : e.text = text
  index_lt : e.index < text.length
  found : text.toList[e.index]? = some e.found
  offset : r.span.offset = (String.ofList (text.toList.take e.index)).utf8ByteSize
  length : r.span.length = (String.singleton e.found).utf8ByteSize
  within : r.span.offset + r.span.length ≤ text.utf8ByteSize

theorem Report.pointsAt_of_found {text : String} {e : ParseError} (ofText : e.text = text)
    (found : text.toList[e.index]? = some e.found) :
    (Report.mk text (.parse e)).PointsAt text e := by
  obtain ⟨hless, hchar⟩ := List.getElem?_eq_some_iff.1 found
  have hspan : (Report.mk text (.parse e)).span =
      ⟨byteLength (text.toList.take e.index), e.found.utf8Size⟩ := by
    simp only [Report.span, Span.ofIndex, found]
  have hsplit : byteLength text.toList = byteLength (text.toList.take e.index) +
      (e.found.utf8Size + byteLength (text.toList.drop (e.index + 1))) := by
    conv => lhs; rw [← List.take_append_drop e.index text.toList, byteLength_append,
      List.drop_eq_getElem_cons hless, hchar]
    rfl
  have hwhole : byteLength text.toList = text.utf8ByteSize := by
    rw [byteLength_eq, String.ofList_toList]
  refine ⟨rfl, ofText, by rwa [← String.length_toList], found, ?_, ?_, ?_⟩
  · rw [hspan, byteLength_eq]
  · rw [hspan, String.utf8ByteSize_singleton]
  · rw [hspan]
    dsimp only
    omega

namespace Lexicon

variable {τ : Type}

theorem stuck_of_scanFrom {l : Lexicon τ} {c d : Cursor} (h : l.scanFrom c = .error d) :
    d.text = c.text ∧ d.ahead ≠ [] := by
  induction hn : c.ahead.length using Nat.strongRecOn generalizing c with
  | _ n ih =>
    rw [scanFrom] at h
    split at h
    · cases h
    · rename_i hmore
      split at h
      · cases h
        exact ⟨rfl, hmore⟩
      · rename_i m hm
        have hless := Cursor.length_ahead_advance_lt hmore (length_pos_of_next? hm)
        split at h
        · rename_i hrest
          cases h
          obtain ⟨htext, hahead⟩ := ih _ (hn ▸ hless) hrest rfl
          exact ⟨by rw [htext, Cursor.text_advance], hahead⟩
        · cases h

theorem found_of_scan {l : Lexicon τ} {text : String} {e : ParseError}
    (h : l.scan text = .error e) : e.text = text ∧ text.toList[e.index]? = some e.found := by
  rw [scan] at h
  split at h
  · cases h
  · rename_i d hstuck
    cases h
    obtain ⟨htext, hahead⟩ := stuck_of_scanFrom hstuck
    obtain ⟨x, ahead, hx⟩ := List.exists_cons_of_ne_nil hahead
    have hfound := d.getElem?_text 0
    rw [htext, Cursor.text_start, Nat.add_zero, hx] at hfound
    refine ⟨rfl, ?_⟩
    rw [hx]
    exact hfound

end Lexicon

theorem Grammar.pointsAt_of_compile {V : Type} [Operand V] {g : Grammar V} {text : String}
    {e : ParseError} (h : g.compile text = .error e) :
    (Report.mk text (.parse e)).PointsAt text e := by
  rw [compile] at h
  split at h
  · rename_i e' hscan
    cases h
    obtain ⟨htext, hfound⟩ := Lexicon.found_of_scan hscan
    exact Report.pointsAt_of_found htext hfound
  · cases h

namespace Formula

theorem pointsAt_of_parse {o : Options} {text : String} {e : ParseError}
    (h : parse o text = .error (.parse e)) : (Report.mk text (.parse e)).PointsAt text e := by
  rw [parse] at h
  split at h
  · cases h
  · split at h
    · cases h
    · split at h
      · rename_i hcompile
        cases h
        exact Grammar.pointsAt_of_compile hcompile
      · cases h

theorem pointsAt_of_symbol {o : Options} {text : String} {r : Report} {e : ParseError}
    (h : symbol o text = .error r) (cause : r.cause = .parse e) : r.PointsAt text e := by
  obtain ⟨s, hs, -⟩ := exists_symbolGrammar o
  rw [symbol, hs] at h
  dsimp only at h
  split at h
  · rename_i hcompile
    cases h
    cases cause
    exact Grammar.pointsAt_of_compile hcompile
  · split at h
    · cases h
      cases cause
    · cases h

/-- Every parse error points at its character, whether a formula is only read, evaluated or
simplified: the index is that of a character of the text, which is the character the error names,
and the span covers just the bytes of that character. -/
theorem parse_errors_point_at_characters (o : Options) (text : String) :
    (∀ e, parse o text = .error (.parse e) → (Report.mk text (.parse e)).PointsAt text e) ∧
    (∀ ctx r e, evaluate o ctx text = .error r → r.cause = .parse e → r.PointsAt text e) ∧
    ∀ r e, optimize o text = .error r → r.cause = .parse e → r.PointsAt text e := by
  refine ⟨fun e h => pointsAt_of_parse h, fun ctx r e h hcause => ?_, fun r e h hcause => ?_⟩
  · rw [evaluate] at h
    split at h
    · rename_i hparse
      cases h
      cases hcause
      exact pointsAt_of_parse hparse
    · split at h
      · cases h
        cases hcause
      · cases h
  · rw [optimize] at h
    split at h
    · cases h
    · cases hsymbol : symbol o text with
      | ok s =>
        rw [hsymbol] at h
        cases h
      | error r' =>
        rw [hsymbol] at h
        cases h
        exact pointsAt_of_symbol hsymbol hcause

/-- Characters of two bytes stand before the place and at it. -/
theorem parse_errors_point_at_characters_accented :
    (∃ e, parse {} "'é' + ü" = .error (.parse e) ∧ e.index = 6 ∧
      (Report.mk "'é' + ü" (.parse e)).span = ⟨7, 2⟩ ∧
      (Report.mk "'é' + ü" (.parse e)).PointsAt "'é' + ü" e) ∧
    ∃ r e, evaluate {} .empty "'é' + ü" = .error r ∧ optimize {} "'é' + ü" = .error r ∧
      r.cause = .parse e ∧ r.PointsAt "'é' + ü" e := by
  have hblank : Text.isBlankText "'é' + ü" = false := by decide
  have hcompile : ∀ {V : Type} [Operand V] (i : Interpretation V),
      compileAs true i "'é' + ü" = .error ⟨"'é' + ü", 6, 'ü'⟩ := fun i => rfl
  have hparse : parse {} "'é' + ü" = .error (.parse ⟨"'é' + ü", 6, 'ü'⟩) := by
    rw [parse_eq_compileAs, hblank, hcompile]
    rfl
  have hevaluate : evaluate {} .empty "'é' + ü" =
      .error ⟨"'é' + ü", .parse ⟨"'é' + ü", 6, 'ü'⟩⟩ := by
    rw [evaluate, hparse]
  have hoptimize : optimize {} "'é' + ü" = .error ⟨"'é' + ü", .parse ⟨"'é' + ü", 6, 'ü'⟩⟩ := by
    rw [optimize, hblank, symbol_eq_compileAs, hcompile]
    rfl
  obtain ⟨hread, hrun, _⟩ := parse_errors_point_at_characters {} "'é' + ü"
  exact ⟨⟨_, hparse, rfl, rfl, hread _ hparse⟩, _, _, hevaluate, hoptimize, rfl,
    hrun _ _ _ hevaluate rfl⟩

end Formula

end FormulaEngine
