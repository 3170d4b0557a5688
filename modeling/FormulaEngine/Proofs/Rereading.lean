import FormulaEngine.Proofs.Compiling
import FormulaEngine.Proofs.Phrases
import FormulaEngine.Proofs.Slipping

/-!
# Rereading

What a simplified formula is read as again: the normal form of the tree that the formula before
stands for, unless a multiplication slips past a comparison.
-/
namespace FormulaEngine

open Formula

/-- The tree of a formula: its value where the words of the language make nodes. -/
def Formula.tree (o : Options) (text : String) : Except Report Tree :=
  match Grammar.build (rules o Tree.building) with
  | .error e => .error ⟨text, .conflict e⟩
  | .ok g =>
    match g.compile text with
    | .error e => .error ⟨text, .parse e⟩
    | .ok p =>
      match p.evaluate [Tree.resolver] with
      | .error e => .error ⟨text, .resolve e⟩
      | .ok t => .ok t

theorem tree_eq_compileAs (o : Options) (text : String) :
    Formula.tree o text =
      ((compileAs o.ignoreBlanks Tree.building text).mapError fun e => ⟨text, .parse e⟩).bind
        fun p => (p.evaluate [Tree.resolver]).mapError fun e => ⟨text, .resolve e⟩ := by
  obtain ⟨g, hbuild, hspeaks⟩ := exists_grammar o Tree.building
  simp only [Formula.tree, hbuild, compile_eq_compileAs hspeaks]
  cases compileAs o.ignoreBlanks Tree.building text with
  | error e => rfl
  | ok p =>
    dsimp only
    change _ = (p.evaluate [Tree.resolver]).mapError fun e => Report.mk text (.resolve e)
    cases p.evaluate [Tree.resolver] <;> rfl

/-- A formula that has a symbol has a tree, with the code that the formula is compiled to whatever
its words mean. -/
theorem exists_tree_of_symbol {o : Options} {text : String} {s : Symbol}
    (h : Formula.symbol o text = .ok s) :
    ∃ t, Formula.tree o text = .ok t ∧ t.symbol = s ∧
      (∀ c ∈ t.code, ∀ w, c.source? = some w → w.WellSpelled) ∧
      ∀ (V : Type) [Operand V] (i : Interpretation V), ∃ g, Grammar.build (rules o i) = .ok g ∧
        g.compile text = .ok ⟨instructions i t.code, text⟩ := by
  obtain ⟨g, hbuild, hspeaks⟩ := exists_symbolGrammar o
  obtain ⟨p, hcompile, heval⟩ := (symbol_eq_ok_iff hbuild).1 h
  obtain ⟨pieces, hcuts, rfl⟩ := hspeaks.compile_eq_ok_iff.1 hcompile
  obtain ⟨code, hsource, huniform⟩ := exists_toPostfix (Entry.readAll pieces)
  rw [huniform] at heval
  obtain ⟨t, htree, rfl, hsymbol⟩ := exists_tree heval
  have hcompiled : ∀ (V : Type) [Operand V] (i : Interpretation V), ∃ g,
      Grammar.build (rules o i) = .ok g ∧
        g.compile text = .ok ⟨instructions i t.code, text⟩ := by
    intro V _ i
    obtain ⟨g, hbuild, hspeaks⟩ := exists_grammar o i
    refine ⟨g, hbuild, hspeaks.compile_eq_ok_iff.2 ⟨pieces, hcuts, ?_⟩⟩
    rw [huniform, instructions]
  obtain ⟨g, hbuild, hcompile⟩ := hcompiled Tree Tree.building
  refine ⟨t, ?_, hsymbol, fun c hc w hw => ?_, hcompiled⟩
  · simp only [Formula.tree, hbuild, hcompile, htree]
  · exact wellSpelled_of_cuts hcuts w (hsource c hc w hw)

theorem compile_of_words {V : Type} [Operand V] {i : Interpretation V} {g : Grammar V}
    {ignoreBlanks : Bool} (speaks : g.Speaks ignoreBlanks i) {t : Tree} {text : String}
    (spelled : text.toList = spelling (t.words .formula))
    (shown : ∀ w ∈ t.words .formula, w.IsShown)
    (apart : (t.words .formula).IsChain fun w v => w.runsInto v = false) :
    g.compile text = .ok ⟨(t.expression i .formula).postorder, text⟩ := by
  have hwell : ∀ w ∈ t.words .formula, w.WellSpelled := fun w hw => (shown w hw).1
  have hcuts := cuts_spelling ignoreBlanks hwell
    (spaced_of_chain shown (t.phrase .formula).chain apart) []
  rw [← spelled] at hcuts
  have hcompile := speaks.compile_eq_ok_iff.2 ⟨_, hcuts, rfl⟩
  rwa [readAll_words hwell, Tree.toPostfix_words] at hcompile

theorem parse_of_words (o : Options) {t : Tree} {text : String}
    (spelled : text.toList = spelling (t.words .formula))
    (shown : ∀ w ∈ t.words .formula, w.IsShown)
    (apart : (t.words .formula).IsChain fun w v => w.runsInto v = false)
    (notBlank : Text.isBlankText text = false) :
    parse o text = .ok (.formula
      ⟨(t.expression (arithmetic o.strict) .formula).postorder, text⟩) := by
  obtain ⟨g, hbuild, hspeaks⟩ := exists_grammar o (arithmetic o.strict)
  have hcompile := compile_of_words hspeaks spelled shown apart
  simp only [parse, notBlank, Bool.false_eq_true, if_false, grammar, hbuild, hcompile]

theorem exists_words_of_optimize {o : Options} {text out : String}
    (optimized : optimize o text = .ok out) (notBlank : Text.isBlankText text = false) :
    ∃ t, Formula.tree o text = .ok t ∧ out.toList = spelling (t.folded.words .formula) ∧
      (∀ w ∈ t.folded.words .formula, w.IsShown) ∧
      ∀ (V : Type) [Operand V] (i : Interpretation V), ∃ g, Grammar.build (rules o i) = .ok g ∧
        g.compile text = .ok ⟨instructions i t.code, text⟩ := by
  simp only [optimize, notBlank, Bool.false_eq_true, if_false] at optimized
  obtain ⟨s, hsymbol, rfl⟩ := map_eq_ok.1 optimized
  obtain ⟨t, htree, rfl, hspelled, hcompiled⟩ := exists_tree_of_symbol hsymbol
  have hshown : ∀ c ∈ t.folded.code, c.IsShown :=
    Tree.forall_code_folded (fun _ => ⟨by rintro _ ⟨⟩; trivial, nofun⟩)
      (fun _ => ⟨nofun, nofun⟩) (fun _ => ⟨nofun, nofun⟩) t
      (fun c hc hsign => ⟨hspelled c hc, hsign⟩)
  refine ⟨t, htree, ?_, t.folded.isShown_words hshown .formula, hcompiled⟩
  rw [t.symbol_eq_draw, Symbol.formulaText, Tree.toList_write_draw]

/-- A simplified formula is read as the normal form of the tree that the formula stands for, if and
only if no multiplication slips. -/
theorem parse_optimize_iff (o o' : Options) {text out : String}
    (optimized : optimize o text = .ok out) (notBlank : Text.isBlankText out = false) :
    ∃ t, Formula.tree o text = .ok t ∧
      parse o text = .ok (.formula ⟨instructions (arithmetic o.strict) t.code, text⟩) ∧
      out.toList = spelling (t.folded.words .formula) ∧
      ((t.folded.words .formula).IsChain (fun w v => w.runsInto v = false) →
        (parse o' out =
            .ok (.formula ⟨instructions (arithmetic o'.strict) t.normal.code, out⟩) ↔
          t.folded.slips = false)) := by
  have hblank : Text.isBlankText text = false := by
    refine Bool.eq_false_iff.2 fun hblank => ?_
    simp only [optimize, hblank, if_true] at optimized
    cases optimized
    cases notBlank
  obtain ⟨t, htree, hwritten, hshown, hcompiled⟩ := exists_words_of_optimize optimized hblank
  have hparsed : parse o text =
      .ok (.formula ⟨instructions (arithmetic o.strict) t.code, text⟩) := by
    obtain ⟨g, hbuild, hcompile⟩ := hcompiled Value (arithmetic o.strict)
    simp only [parse, hblank, Bool.false_eq_true, if_false, grammar, hbuild, hcompile]
  refine ⟨t, htree, hparsed, hwritten, fun apart => ?_⟩
  have hparse := parse_of_words o' hwritten hshown apart notBlank
  rw [hparse, t.normal_eq_regrouped, ← Tree.postorder_expression_eq_iff (arithmetic o'.strict)]
  constructor
  · intro h
    injection h with h
    injection h with h
    injection h
  · intro h
    rw [h]

theorem parse_optimize_iff_sum :
    optimize {} "1+(2+3)" = .ok "1+2+3" ∧ Text.isBlankText "1+2+3" = false ∧
      parse {} "1+2+3" = .ok (.formula ⟨instructions (arithmetic false)
        [ .literal (.integer "1"), .literal (.integer "2"), .sign (.between .add),
          .literal (.integer "3"), .sign (.between .add) ], "1+2+3"⟩) := by
  have hoptimize : (optimize {} "1+(2+3)").toOption = some "1+2+3" := by
    rw [optimize, symbol_eq_compileAs]
    decide +kernel
  have htree : (Formula.tree {} "1+(2+3)").toOption.map (fun t => (t.normal.code, t.folded.slips,
      decide ((t.folded.words .formula).IsChain fun w v => w.runsInto v = false))) =
    some ([ .literal (.integer "1"), .literal (.integer "2"), .sign (.between .add),
      .literal (.integer "3"), .sign (.between .add) ], false, true) := by
    rw [tree_eq_compileAs]
    decide +kernel
  rw [toOption_eq_some] at hoptimize
  obtain ⟨t, hdenoted, _, _, hread⟩ := parse_optimize_iff {} {} hoptimize (by decide)
  rw [hdenoted] at htree
  simp only [Except.toOption, Option.map_some, Option.some.injEq, Prod.mk.injEq,
    decide_eq_true_eq] at htree
  obtain ⟨hcode, hslips, hapart⟩ := htree
  refine ⟨hoptimize, by decide, ?_⟩
  rw [← hcode]
  exact (hread hapart).2 hslips

end FormulaEngine
