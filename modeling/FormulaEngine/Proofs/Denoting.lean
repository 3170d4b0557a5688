import FormulaEngine.Proofs.Attaching
import FormulaEngine.Proofs.Idempotence

/-!
# What texts denote

The words that a text is read as and the tree that it stands for, which is what evaluating the text
evaluates.
-/
namespace FormulaEngine

open Formula

namespace Formula

/-- The words of a text, read with the trie of the language, or the place where there is none. -/
def lex (ignoreBlanks : Bool) (text : String) : Except Cursor (List Word) :=
  ((Entry.tree ignoreBlanks).cutFrom text.toList.length (.start text.toList)).map Entry.readAll

variable {ignoreBlanks : Bool} {text : String} {words : List Word}

theorem exists_cuts_of_lex (h : lex ignoreBlanks text = .ok words) :
    ∃ pieces, (Entry.tree ignoreBlanks).Cuts (.start text.toList) pieces ∧
      Entry.readAll pieces = words := by
  obtain ⟨pieces, hpieces, hread⟩ := map_eq_ok.1 h
  exact ⟨pieces, Branch.cuts_of_cutFrom hpieces, hread⟩

theorem lex_of_cuts {pieces : List (Entry × List Char)}
    (h : (Entry.tree ignoreBlanks).Cuts (.start text.toList) pieces) :
    lex ignoreBlanks text = .ok (Entry.readAll pieces) := by
  have henough : (Cursor.start text.toList).ahead.length ≤ text.toList.length := Nat.le_refl _
  rw [lex, Branch.cutFrom_of_cuts henough h]
  rfl

theorem compile_of_lex {V : Type} [Operand V] {i : Interpretation V} {g : Grammar V}
    (speaks : g.Speaks ignoreBlanks i) (h : lex ignoreBlanks text = .ok words) :
    g.compile text =
      .ok ⟨toPostfix (some (i.binaryOperator .list)) (words.map (Word.token i)), text⟩ := by
  obtain ⟨pieces, hcuts, rfl⟩ := exists_cuts_of_lex h
  exact speaks.compile_eq_ok_iff.2 ⟨pieces, hcuts, rfl⟩

theorem exists_compile_of_lex {V : Type} [Operand V] {i : Interpretation V} {g : Grammar V}
    {kind : Expression (some (i.binaryOperator .list)) → Prop} (speaks : g.Speaks ignoreBlanks i)
    (h : lex ignoreBlanks text = .ok words) (reads : ReadAs i kind words) :
    ∃ e, kind e ∧ g.compile text = .ok ⟨e.postorder, text⟩ := by
  obtain ⟨e, he, well, htokens⟩ := reads
  have hpostfix : toPostfix (some (i.binaryOperator .list)) e.tokens =
      e.postorder ++ completeAll [] :=
    e.postfixFrom_tokens well rfl (fun _ _ => trivial) (fun _ => rfl)
  rw [completeAll, List.append_nil] at hpostfix
  refine ⟨e, he, ?_⟩
  rw [compile_of_lex speaks h, ← htokens, hpostfix]

theorem exists_shown_of_cuts {c : Cursor} {pieces : List (Entry × List Char)}
    (cuts : (Entry.tree ignoreBlanks).Cuts c pieces) (ne : Entry.readAll pieces ≠ []) :
    ∃ x ∈ c.ahead, Text.isBlank x = false := by
  induction cuts with
  | done => exact absurd rfl ne
  | @piece c e n pieces _ found _ ih =>
    cases hread : e.reading (c.ahead.take n) with
    | none =>
      have hrest : Entry.readAll ((e, c.ahead.take n) :: pieces) = Entry.readAll pieces := by
        simp [Entry.readAll, Lexicon.readAll, hread]
      rw [hrest] at ne
      obtain ⟨x, hx, hblank⟩ := ih ne
      rw [Cursor.advance_eq] at hx
      exact ⟨x, List.mem_of_mem_drop hx, hblank⟩
    | some w =>
      obtain ⟨hw, htext⟩ := wellSpelled_of_first? found hread
      obtain ⟨x, xs, hx, hfirst⟩ := Word.exists_text hw
      have hmem : x ∈ c.ahead.take n := by rw [← htext, hx]; exact List.mem_cons_self
      exact ⟨x, List.mem_of_mem_take hmem, (Word.of_mem_firsts hfirst).1⟩

theorem not_isBlankText_of_lex (h : lex ignoreBlanks text = .ok words) (ne : words ≠ []) :
    Text.isBlankText text = false := by
  obtain ⟨pieces, hcuts, rfl⟩ := exists_cuts_of_lex h
  obtain ⟨x, hx, hblank⟩ := exists_shown_of_cuts hcuts ne
  exact List.all_eq_false.2 ⟨x, hx, by simp [hblank]⟩

/-- The tree that a text is read as, and that evaluating the text evaluates. -/
structure Denotes (o : Options) (text : String) (t : Tree) : Prop where
  tree : Formula.tree o text = .ok t
  parse : Formula.parse o text = .ok (.formula ⟨instructions (arithmetic o.strict) t.code, text⟩)

end Formula

section

variable {o : Options} {text : String} {t : Tree}

theorem denotes_of_compiled (saturated : t.Saturated) (notBlank : Text.isBlankText text = false)
    (compiled : ∀ (V : Type) [Operand V] (i : Interpretation V), ∃ g,
      Grammar.build (rules o i) = .ok g ∧ g.compile text = .ok ⟨instructions i t.code, text⟩) :
    Denotes o text t := by
  obtain ⟨g, hbuild, hcompile⟩ := compiled Tree Tree.building
  obtain ⟨g', hbuild', hcompile'⟩ := compiled Value (arithmetic o.strict)
  constructor
  · simp only [Formula.tree, hbuild, hcompile, Tree.evaluate_building saturated]
  · simp only [Formula.parse, notBlank, Bool.false_eq_true, if_false, grammar, hbuild', hcompile']

theorem resolves_instructions {V : Type} [Operand V] (i : Interpretation V) {scope : Resolver V}
    {lookup : Reference → Outcome V} {code : List Code}
    (h : ∀ r, .reference r ∈ code → scope r = (lookup r).map .value) :
    Resolves scope lookup (instructions i code) := by
  intro r hr
  obtain ⟨c, hc, hinstruction⟩ := List.mem_map.1 hr
  cases c with
  | reference r' =>
    cases hinstruction
    exact h r hc
  | _ => cases hinstruction

/-- Evaluating a text gives the value of its tree. -/
theorem Formula.Denotes.evaluate_eq (h : Denotes o text t) (saturated : t.Saturated) {ctx : Context}
    {lookup : Reference → Outcome Value}
    (resolves : ∀ r, .reference r ∈ t.code →
      ctx.resolver (ctx.scopesTo ctx.size) r = (lookup r).map .value) {v : Value}
    (value : (t.unbracketed (arithmetic o.strict)).value lookup = .ok v) :
    evaluate o ctx text = .ok v := by
  have hevaluate : (Program.mk (instructions (arithmetic o.strict) t.code) text).evaluate
      ctx.scopes = .ok v :=
    (Tree.evaluate_instructions (arithmetic o.strict) saturated
      (resolves_instructions _ resolves) _ text).trans value
  simp only [evaluate, h.parse, Binding.resolve, Binding.resolveWith, hevaluate]

/-- A text that is compiled to trees of some kind can be simplified. Its tree and what the words of
the folded one are read as are what the text and the simplified one denote. -/
theorem exists_denotes (o o' : Options) {text : String} {P : Tree → Prop}
    (saturated : ∀ t, P t → t.Saturated) (notBlank : Text.isBlankText text = false)
    (compiles : ∀ (V : Type) [Operand V] (i : Interpretation V) (g : Grammar V),
      g.Speaks o.ignoreBlanks i → ∃ t, P t ∧ g.compile text = .ok ⟨instructions i t.code, text⟩) :
    ∃ out t, P t ∧ optimize o text = .ok out ∧ Denotes o text t ∧
      ((t.folded.words .formula).IsChain (fun w v => w.runsInto v = false) →
        ∀ u : Tree, u.Saturated → (∀ (V : Type) [Operand V] (i : Interpretation V),
          (t.folded.expression i .formula).postorder = instructions i u.code) →
            Denotes o' out u) := by
  obtain ⟨g, hbuild, hspeaks⟩ := exists_symbolGrammar o
  obtain ⟨s, hs, hcompile⟩ := compiles Symbol Symbol.writing g hspeaks
  have hout := optimize_of_code (saturated s hs) notBlank hbuild hcompile
  obtain ⟨t, htree, hwritten, hshown, hcompiled⟩ := exists_words_of_optimize hout notBlank
  have ht : P t := by
    obtain ⟨g, hbuild, hspeaks⟩ := exists_grammar o Tree.building
    obtain ⟨t', ht', hcompile⟩ := compiles Tree Tree.building g hspeaks
    simp only [Formula.tree, hbuild, hcompile, Tree.evaluate_building (saturated t' ht'),
      Except.ok.injEq] at htree
    rwa [htree] at ht'
  refine ⟨_, t, ht, hout, denotes_of_compiled (saturated t ht) notBlank hcompiled, ?_⟩
  intro apart u hu hpostorder
  refine denotes_of_compiled hu
    (not_isBlankText_of_words hwritten fun w hw => (hshown w hw).1) ?_
  intro V _ i
  obtain ⟨g, hbuild, hspeaks⟩ := exists_grammar o' i
  refine ⟨g, hbuild, ?_⟩
  rw [← hpostorder V i]
  exact compile_of_words hspeaks hwritten hshown apart

end

end FormulaEngine
