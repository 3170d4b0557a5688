import FormulaEngine.Proofs.Denoting
import FormulaEngine.Proofs.Inlining
import FormulaEngine.Proofs.Splicing

/-!
# Lookups

A formula that is nothing but a reference reads the context. The formula of its key is spliced in,
which comes to the same as to read the key, be that formula well formed or not.
-/
namespace FormulaEngine

namespace Context

theorem evaluate_reference {ctx : Context} (acyclic : ctx.Acyclic) (r : Reference) (text : String) :
    (Program.mk [.reference r] text).evaluate ctx.scopes =
      if Wildcard.isPattern r.key.toList then
        (ctx.search r.key).map fun found => .list (found.map Prod.snd)
      else ctx.get r.key := by
  rw [evaluate_eq_execute, scopes_eq_cons, execute_reference]
  by_cases spliced : ∃ p, ctx.resolver (ctx.scopesTo ctx.size) r = .ok (.splice p)
  · obtain ⟨p, hp⟩ := spliced
    obtain ⟨hbound, hpoint⟩ := lookup_of_resolver_splice hp
    have hdeeper : execute (ctx.scopesTo ctx.size) p.code [] = execute ctx.scopes p.code [] :=
      execute_scopesTo_of_bound acyclic hbound (.formula p) (Nat.le_refl _) (Nat.le_succ _) []
    have hget : ctx.get r.key = p.evaluate ctx.scopes := by
      rw [get, getWith, hbound]
      rfl
    simp only [hp, hpoint, hdeeper, hget, evaluate_eq_execute]
    rfl
  · have unspliced : ∀ p, ctx.resolver (ctx.scopesTo ctx.size) r ≠ .ok (.splice p) :=
      fun p hp => spliced ⟨p, hp⟩
    rw [resolver_eq_valueResolver acyclic unspliced, valueResolver]
    by_cases hpattern : Wildcard.isPattern r.key.toList = true
    · rw [if_pos hpattern, if_pos hpattern]
      cases ctx.search r.key <;> rfl
    · rw [if_neg hpattern, if_neg hpattern]
      cases ctx.get r.key <;> rfl

end Context

namespace Formula

theorem parse_reference (o : Options) {r : Reference} (wellSpelled : r.WellSpelled) :
    parse o (r.opening ++ r.key ++ r.closing) =
      .ok (.formula ⟨[.reference r], r.opening ++ r.key ++ r.closing⟩) := by
  have hwords : ∀ w ∈ [Word.reference r], w.WellSpelled := by
    intro w hw
    obtain rfl := List.mem_singleton.1 hw
    exact wellSpelled
  have hcuts := cuts_spelling o.ignoreBlanks hwords ⟨avoids_end _, trivial⟩ []
  have hlex : lex o.ignoreBlanks (r.opening ++ r.key ++ r.closing) = .ok [.reference r] := by
    rw [← readAll_words hwords]
    refine lex_of_cuts ?_
    simpa [spelling, Cursor.start, Word.text] using hcuts
  obtain ⟨g, hbuild, hspeaks⟩ := exists_grammar o (arithmetic o.strict)
  have hcompile := compile_of_lex hspeaks hlex
  have hblank := not_isBlankText_of_lex hlex (by simp)
  simp only [parse, grammar, hblank, Bool.false_eq_true, if_false, hbuild, hcompile]
  rfl

/-- A reference to a key reads its value from the context, and one to a pattern the values of all
keys that it covers. -/
theorem evaluate_reads_context (o : Options) {ctx : Context} (acyclic : ctx.Acyclic)
    {r : Reference} (wellSpelled : r.WellSpelled) :
    evaluate o ctx (r.opening ++ r.key ++ r.closing) =
      (if Wildcard.isPattern r.key.toList then
        (ctx.search r.key).map fun found => .list (found.map Prod.snd)
      else ctx.get r.key).mapError fun e => ⟨r.opening ++ r.key ++ r.closing, .resolve e⟩ := by
  rw [← ctx.evaluate_reference acyclic r (r.opening ++ r.key ++ r.closing), evaluate,
    parse_reference o wellSpelled]
  dsimp only [Binding.resolve, Binding.resolveWith]
  cases (Program.mk [.reference r] (r.opening ++ r.key ++ r.closing)).evaluate ctx.scopes <;> rfl

open Sample in
/-- A formula without an operand fails alike, and a pattern reads a list. -/
theorem evaluate_reads_context_increment :
    evaluate ⟨false, true⟩ incrementContext "@n" = .error ⟨"@n", .resolve (.missingOperand "+" 2)⟩ ∧
      evaluate ⟨false, true⟩ chain "@\x7ba*\x7d" = .ok (.list [.integer 1]) := by
  have hmissing : incrementContext.get "n" = .error (.missingOperand "+" 2) := by
    change (Program.mk [.term (.integer 2), .operator (sign .add)] "+2").evaluate _ = _
    rw [evaluate_eq_execute, execute_cons_goOn rfl, execute_cons_error rfl]
    rfl
  have hnumber : chain.get "a" = .ok (.integer 1) := by
    change Program.evaluate _ _ = _
    rw [evaluate_eq_execute, execute_cons_goOn rfl, execute_nil]
    rfl
  have hfound : chain.search "a*" = .ok [("a", .integer 1)] := by
    have hkeys : chain.keysMatching "a*" = ["a"] := by decide
    rw [Context.search, Context.searchWith, hkeys, Context.getEach]
    rw [Context.get] at hnumber
    rw [hnumber]
    rfl
  have hplain := evaluate_reads_context ⟨false, true⟩ incrementContext_acyclic
    (r := ⟨"@", "n", ""⟩) (.inl ⟨rfl, rfl, 'n', [], rfl, by decide, .inl rfl⟩)
  have hbraced := evaluate_reads_context ⟨false, true⟩ chain_acyclic
    (r := ⟨"@\x7b", "a*", "\x7d"⟩) (.inr ⟨rfl, rfl, by decide⟩)
  have hpattern : Wildcard.isPattern "a*".toList = true := rfl
  constructor
  · rw [hmissing] at hplain
    exact hplain
  · simp only [hpattern, if_true, hfound] at hbraced
    exact hbraced

end Formula

end FormulaEngine
