import FormulaEngine.Proofs.Redrawing
import FormulaEngine.Proofs.Rereading

/-!
# Idempotence

Simplifying a simplified formula gives the same text again, unless a multiplication slips past a
comparison in it.
-/
namespace FormulaEngine

open Formula

theorem saturated_of_tree {o : Options} {text : String} {t : Tree}
    (h : Formula.tree o text = .ok t)
    (compiled : ∃ g, Grammar.build (rules o Tree.building) = .ok g ∧
      g.compile text = .ok ⟨instructions Tree.building t.code, text⟩) : t.Saturated := by
  obtain ⟨g, hbuild, hcompile⟩ := compiled
  simp only [Formula.tree, hbuild, hcompile] at h
  split at h
  · cases h
  · rename_i htree
    cases h
    exact Tree.saturated_of_evaluate htree

theorem not_isBlankText_of_words {t : Tree} {place : Symbol.Place} {text : String}
    (spelled : text.toList = spelling (t.words place))
    (wellSpelled : ∀ w ∈ t.words place, w.WellSpelled) : Text.isBlankText text = false := by
  obtain ⟨w, ws, hwords⟩ := List.exists_cons_of_ne_nil (t.phrase place).ne_nil
  obtain ⟨c, cs, htext, hc⟩ := Word.exists_text (wellSpelled w (by simp [hwords]))
  rw [Text.isBlankText, spelled, hwords, spelling_cons, htext, List.cons_append, List.all_cons,
    (Word.of_mem_firsts hc).1, Bool.false_and]

theorem optimize_of_code {o : Options} {t : Tree} {text : String} {g : Grammar Symbol}
    (saturated : t.Saturated) (notBlank : Text.isBlankText text = false)
    (built : symbolGrammar o = .ok g)
    (compiled : g.compile text = .ok ⟨instructions Symbol.writing t.code, text⟩) :
    optimize o text = .ok (Symbol.formulaText t.symbol) := by
  simp only [optimize, notBlank, Bool.false_eq_true, if_false, Formula.symbol, built, compiled,
    Tree.evaluate_code saturated]
  rfl

section

variable (o : Options) {t : Tree} {text : String}
  (saturated : t.Saturated) (flat : t.Flat)
  (spelled : text.toList = spelling (t.words .formula))
  (shown : ∀ w ∈ t.words .formula, w.IsShown)
  (apart : (t.words .formula).IsChain fun w v => w.runsInto v = false)

include saturated flat spelled shown apart

theorem exists_optimize_of_words :
    ∃ again, optimize o text = .ok again ∧
      again.toList = spelling (t.reread.words .formula) := by
  obtain ⟨g, hbuild, hspeaks⟩ := exists_symbolGrammar o
  have hcompile := compile_of_words hspeaks spelled shown apart
  have hblank := not_isBlankText_of_words spelled fun w hw => (shown w hw).1
  rw [(t.recovers Symbol.writing).whole] at hcompile
  refine ⟨Symbol.formulaText t.reread.symbol,
    optimize_of_code (Tree.saturated_reread saturated) hblank hbuild hcompile, ?_⟩
  rw [Tree.symbol_eq_draw, Tree.folded_eq_self (Tree.flat_reread flat), Symbol.formulaText,
    Tree.toList_write_draw]

theorem optimize_of_words_iff : optimize o text = .ok text ↔ t.slips = false := by
  obtain ⟨again, hagain, hwords⟩ := exists_optimize_of_words o saturated flat spelled shown apart
  rw [hagain, Except.ok.injEq, ← String.toList_inj, hwords, spelled]
  exact Tree.spelling_reread_iff fun w hw => (shown w hw).1

end

/-- A simplified formula in which no key takes up a sign can be read again, and simplifying it
again gives the same text if and only if no multiplication slips. -/
theorem optimize_optimize_iff (o o' : Options) {text out : String}
    (optimized : optimize o text = .ok out) :
    (Text.isBlankText text = true ∧ out = "" ∧ parse o' out = .ok .empty ∧
        optimize o' out = .ok out) ∨
      ∃ t, Formula.tree o text = .ok t ∧ out.toList = spelling (t.folded.words .formula) ∧
        ((t.folded.words .formula).IsChain (fun w v => w.runsInto v = false) →
          (∃ p, parse o' out = .ok (.formula p)) ∧
            (optimize o' out = .ok out ↔ t.folded.slips = false)) := by
  cases hblank : Text.isBlankText text with
  | true =>
    simp only [optimize, hblank, if_true, Except.ok.injEq] at optimized
    subst optimized
    exact .inl ⟨rfl, rfl, rfl, rfl⟩
  | false =>
    obtain ⟨t, htree, hwritten, hshown, hcompiled⟩ := exists_words_of_optimize optimized hblank
    have hsaturated := saturated_of_tree htree (hcompiled Tree Tree.building)
    have hout := not_isBlankText_of_words hwritten fun w hw => (hshown w hw).1
    refine .inr ⟨t, htree, hwritten, fun apart =>
      ⟨⟨_, parse_of_words o' hwritten hshown apart hout⟩, ?_⟩⟩
    exact optimize_of_words_iff o' (Tree.saturated_folded hsaturated) t.flat_folded hwritten hshown
      apart

/-- A sum is simplified once and for all; a product that slips is not. -/
theorem optimize_optimize_iff_sum_product :
    (optimize {} "1+(2+3)" = .ok "1+2+3" ∧ optimize {} "1+2+3" = .ok "1+2+3") ∧
      optimize {} "5*((2<3)*4)" = .ok "5*2<3*4" ∧ optimize {} "5*2<3*4" ≠ .ok "5*2<3*4" := by
  have hagain : ∀ {text out : String} (late : Bool), optimize {} text = .ok out →
      Text.isBlankText text = false →
      (Formula.tree {} text).toOption.map (fun t => (t.folded.slips,
        decide ((t.folded.words .formula).IsChain fun w v => w.runsInto v = false))) =
          some (late, true) →
      (optimize {} out = .ok out ↔ late = false) := by
    intro text out late optimized notBlank htree
    rcases optimize_optimize_iff {} {} optimized with ⟨hblank, _⟩ | ⟨t, hdenoted, _, hagain⟩
    · rw [hblank] at notBlank
      cases notBlank
    · rw [hdenoted] at htree
      simp only [Except.toOption, Option.map_some, Option.some.injEq, Prod.mk.injEq,
        decide_eq_true_eq] at htree
      rw [← htree.1]
      exact (hagain htree.2).2
  have hsum : optimize {} "1+(2+3)" = .ok "1+2+3" := by
    rw [← toOption_eq_some, optimize, symbol_eq_compileAs]
    decide +kernel
  have hproduct : optimize {} "5*((2<3)*4)" = .ok "5*2<3*4" := by
    rw [← toOption_eq_some, optimize, symbol_eq_compileAs]
    decide +kernel
  have hsum' := hagain false hsum (by decide) (by rw [tree_eq_compileAs]; decide +kernel)
  have hproduct' := hagain true hproduct (by decide) (by rw [tree_eq_compileAs]; decide +kernel)
  exact ⟨⟨hsum, hsum'.2 rfl⟩, hproduct, fun h => Bool.noConfusion (hproduct'.1 h)⟩

end FormulaEngine
