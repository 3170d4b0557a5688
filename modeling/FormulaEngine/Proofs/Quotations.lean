import FormulaEngine.Proofs.Literals

/-!
# Quotations

A text between two quotation marks is a formula of its own just when every mark inside of it comes
after a backslash and no backslash stands before the last mark. What begins with a mark and is read
begins with a quotation in any case, but a shorter one, if the text is closed too early.
-/
namespace FormulaEngine

open Formula

def Value.quotation (mark : Char) (s : String) : Value :=
  .quoted (.text s) (String.singleton mark) (String.singleton mark)

section Reading

variable {mark : Char}

theorem Entry.eq_quoted_of_accepts {e : Entry} {cs : List Char} (isMark : mark = '\'' ∨ mark = '"')
    (accepts : e.Accepts (mark :: cs)) : ∃ escape, e = .quoted (String.singleton mark) escape := by
  have hdigit : mark ∉ Fragment.digitChars := by rcases isMark with rfl | rfl <;> decide
  have hblank : mark ∉ Fragment.blankChars := by rcases isMark with rfl | rfl <;> decide
  cases e with
  | blanks => exact absurd (accepts.2.2 mark (by simp)) hblank
  | integer => exact absurd (accepts.2.2 mark (by simp)) hdigit
  | decimal =>
    obtain ⟨whole, fraction, htext, hwhole, _⟩ := accepts
    obtain ⟨c, whole, rfl⟩ := List.exists_cons_of_ne_nil hwhole.1
    obtain ⟨rfl, _⟩ := List.cons.inj htext
    exact absurd (hwhole.2.2 mark (by simp)) hdigit
  | quoted m escape =>
    obtain ⟨q, text, hmark, htext, _⟩ := accepts
    obtain ⟨rfl, _⟩ := List.cons.inj htext
    rcases hmark with ⟨rfl, rfl⟩ | ⟨rfl, rfl⟩ <;> exact ⟨escape, rfl⟩
  | reference =>
    obtain ⟨_, _, htext, _⟩ := accepts
    obtain ⟨rfl, _⟩ := List.cons.inj htext
    rcases isMark with h | h <;> cases h
  | bracedReference =>
    obtain ⟨_, htext, _⟩ := accepts
    obtain ⟨rfl, _⟩ := List.cons.inj htext
    rcases isMark with h | h <;> cases h
  | comment =>
    obtain ⟨_, htext, _⟩ := accepts
    obtain ⟨rfl, _⟩ := List.cons.inj htext
    rcases isMark with h | h <;> cases h
  | word w =>
    have hfixed : ∀ w ∈ Word.fixed, w.text.toList.head? ≠ some '\'' ∧
        w.text.toList.head? ≠ some '"' := by decide
    obtain ⟨hw, htext⟩ := accepts
    obtain ⟨hsingle, hdouble⟩ := hfixed w hw
    rw [← htext] at hsingle hdouble
    rcases isMark with rfl | rfl
    · exact absurd rfl hsingle
    · exact absurd rfl hdouble

theorem exists_quoted_of_cuts {ignoreBlanks : Bool} {behind cs : List Char}
    {pieces : List (Entry × List Char)} (isMark : mark = '\'' ∨ mark = '"')
    (cuts : (Entry.tree ignoreBlanks).Cuts ⟨behind, mark :: cs⟩ pieces) :
    ∃ t more, Entry.readAll pieces = .literal (.quoted (String.singleton mark) t) :: more ∧
      (Literal.quoted (String.singleton mark) t).WellSpelled := by
  cases cuts with
  | done atEnd => cases atEnd
  | @piece _ e n pieces _ found rest =>
    have hpos : 0 < n := Branch.pos_of_first? _ found
    have haccepts := Entry.accepts_of_first? found
    obtain ⟨n, rfl⟩ := Nat.exists_eq_add_of_lt hpos
    rw [Nat.zero_add, List.take_succ_cons] at haccepts
    obtain ⟨escape, rfl⟩ := Entry.eq_quoted_of_accepts isMark haccepts
    exact ⟨_, Entry.readAll pieces, rfl, (wellSpelled_of_first? found rfl).1⟩

theorem wellSpelled_quoted_iff (isMark : mark = '\'' ∨ mark = '"') {s : String} :
    (Literal.quoted (String.singleton mark) s).WellSpelled ↔ MarksEscaped mark s := by
  rcases isMark with rfl | rfl
  · rw [marksEscaped_iff (by decide)]
    refine ⟨?_, fun h => .inr ⟨rfl, h⟩⟩
    rintro (⟨h, _⟩ | ⟨_, h⟩)
    · exact absurd h (by decide)
    · exact h
  · rw [marksEscaped_iff (by decide)]
    refine ⟨?_, fun h => .inl ⟨rfl, h⟩⟩
    rintro (⟨_, h⟩ | ⟨h, _⟩)
    · exact h
    · exact absurd h (by decide)

theorem formulaText_quotation (mark : Char) (s : String) :
    (Value.quotation mark s).formulaText = String.singleton mark ++ s ++ String.singleton mark :=
  rfl

/-- What is compiled to a quotation alone is read as one whose marks are escaped. -/
theorem marksEscaped_of_parse {o : Options} (isMark : mark = '\'' ∨ mark = '"') {s : String}
    {p : Program Value} (parsed : parse o (Value.quotation mark s).formulaText = .ok (.formula p))
    (alone : p.code = [.term (Value.quotation mark s)]) : MarksEscaped mark s := by
  have hchars : (Value.quotation mark s).formulaText.toList = mark :: (s.toList ++ [mark]) := by
    rw [formulaText_quotation]
    simp
  rw [parse_eq_compileAs] at parsed
  split at parsed
  · cases parsed
  · rw [compileAs] at parsed
    split at parsed
    · cases parsed
    · rename_i pieces hcut
      obtain rfl : _ = p := Binding.formula.inj (Except.ok.inj parsed)
      have hcuts := Branch.cuts_of_cutFrom hcut
      rw [hchars] at hcuts
      obtain ⟨t, more, hread, hspelled⟩ := exists_quoted_of_cuts isMark hcuts
      rw [hread] at alone
      obtain rfl : t = s := by
        have hfirst : Instruction.term (Value.quotation mark t) = .term (Value.quotation mark s) :=
          (List.cons.inj alone).1
        simpa [Value.quotation] using hfirst
      exact (wellSpelled_quoted_iff isMark).1 hspelled

end Reading

/-- A text between two marks is compiled to that quotation alone just when its marks are escaped;
the quotation keeps the text as it is, and is written as it was. -/
theorem Formula.parse_quotation_iff (o : Options) {mark : Char} (isMark : mark = '\'' ∨ mark = '"')
    (s : String) :
    ((∃ p, parse o (String.singleton mark ++ s ++ String.singleton mark) = .ok (.formula p) ∧
        p.code = [.term (Value.quotation mark s)]) ↔ MarksEscaped mark s) ∧
      (MarksEscaped mark s → (Value.quotation mark s).display = s ∧
        (Value.quotation mark s).formulaText =
          String.singleton mark ++ s ++ String.singleton mark ∧
        ∀ ctx, evaluate o ctx (String.singleton mark ++ s ++ String.singleton mark) =
          .ok (Value.quotation mark s)) := by
  rw [← formulaText_quotation]
  refine ⟨⟨?_, fun escaped => ?_⟩, fun escaped => ⟨rfl, rfl, fun ctx => ?_⟩⟩
  · rintro ⟨p, hparse, hcode⟩
    exact marksEscaped_of_parse isMark hparse hcode
  · have hstands : (Tree.literal (.quoted (String.singleton mark) s)).Stands
        (Value.quotation mark s) :=
      .literal rfl ((wellSpelled_quoted_iff isMark).2 escaped) fun _ => rfl
    exact ⟨_, hstands.parse o, rfl⟩
  · obtain ⟨t, _, ht⟩ := (Value.IsAtom.quoted isMark escaped).exists_stands
    exact ht.evaluate o ctx

example : ¬ MarksEscaped '\'' "a' + 'b" := by
  rw [marksEscaped_iff (by decide)]
  decide

theorem Formula.parse_quotation_iff_escaped :
    ('\'' = '\'' ∨ '\'' = '"') ∧ MarksEscaped '\'' "it\\'s \"a\" [x" ∧
      (∃ p, parse {} "'it\\'s \"a\" [x'" = .ok (.formula p) ∧
        p.code = [.term (Value.quotation '\'' "it\\'s \"a\" [x")]) ∧
      evaluate {} .empty "'it\\'s \"a\" [x'" = .ok (Value.quotation '\'' "it\\'s \"a\" [x") := by
  have hescaped : MarksEscaped '\'' "it\\'s \"a\" [x" :=
    (marksEscaped_iff (by decide)).2 (by decide)
  obtain ⟨hparse, hkept⟩ := Formula.parse_quotation_iff {} (.inl rfl) "it\\'s \"a\" [x"
  obtain ⟨_, _, hevaluate⟩ := hkept hescaped
  exact ⟨.inl rfl, hescaped, hparse.2 hescaped, hevaluate .empty⟩

end FormulaEngine
