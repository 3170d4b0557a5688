import FormulaEngine.Proofs.Attaching
import FormulaEngine.Proofs.Denoting
import FormulaEngine.Proofs.Gaps
import FormulaEngine.Proofs.IntegerTrees

/-!
# Integer formulas

Formulas of integers, references in braces, sums, differences, products, negations and brackets. All
of them can be simplified, and as long as no result is out of range, before and after, they keep
their value.
-/
namespace FormulaEngine

open Formula

/-- Words of an integer formula over some keys. How the operators are grouped is left open. -/
inductive IsArithmetic (keys : String → Prop) : List Word → Prop
  | integer {text : String} (numeral : IsNumeral text) :
    IsArithmetic keys [.literal (.integer text)]
  | reference {key : String} (plain : IsPlainKey key) (bound : keys key) :
    IsArithmetic keys [.reference (.braced key)]
  | bracketed {words : List Word} (inner : IsArithmetic keys words) :
    IsArithmetic keys (.opening :: (words ++ [.closing]))
  | negated {words : List Word} (operand : IsArithmetic keys words) :
    IsArithmetic keys (.minus :: words)
  | joined {op : BinaryOperator} {f : Int → Int → Int} {words more : List Word}
    (computes : op.onIntegers? = some f) (left : IsArithmetic keys words)
    (right : IsArithmetic keys more) : IsArithmetic keys (words ++ op.word :: more)

namespace IsArithmetic

variable {keys : String → Prop} {words : List Word}

theorem phrase (h : IsArithmetic keys words) : Phrase words := by
  induction h with
  | integer numeral => exact .singleton rfl rfl
  | reference plain bound => exact .singleton rfl rfl
  | bracketed _ ih => exact ih.bracketed
  | negated _ ih => exact ih.prefixed .negate
  | joined _ _ _ ih ih' => exact ih.infixed _ ih'

theorem isShown (h : IsArithmetic keys words) : ∀ w ∈ words, w.IsShown := by
  induction h with
  | integer numeral =>
    intro w hw
    cases List.mem_singleton.1 hw
    exact ⟨numeral.isRun, nofun⟩
  | reference plain bound =>
    intro w hw
    cases List.mem_singleton.1 hw
    exact ⟨.inr ⟨rfl, rfl, plain.isRun⟩, nofun⟩
  | bracketed _ ih => exact forall_bracketUnless ⟨trivial, nofun⟩ ⟨trivial, nofun⟩ false ih
  | negated _ ih =>
    intro w hw
    rcases List.mem_cons.1 hw with rfl | hw
    · exact ⟨trivial, nofun⟩
    · exact ih w hw
  | @joined op _ _ _ computes _ _ ih ih' =>
    intro w hw
    rcases List.mem_append.1 hw with hw | hw
    · exact ih w hw
    · rcases List.mem_cons.1 hw with rfl | hw
      · rcases BinaryOperator.eq_of_onIntegers? computes with rfl | rfl | rfl <;>
          exact isShown_word rfl
      · exact ih' w hw

theorem delimited (h : IsArithmetic keys words) {r : Reference} (hr : .reference r ∈ words) :
    r.closing ≠ "" := by
  induction h with
  | integer numeral => cases List.mem_singleton.1 hr
  | reference plain bound =>
    cases List.mem_singleton.1 hr
    change ("\x7d" : String) ≠ ""
    decide
  | @bracketed words _ ih =>
    have hinner : .reference r ∈ bracketUnless false words := hr
    exact ih (Tree.reference_mem_bracketUnless hinner)
  | negated _ ih =>
    rcases List.mem_cons.1 hr with hr | hr
    · cases hr
    · exact ih hr
  | @joined op _ _ _ _ _ _ ih ih' =>
    rcases List.mem_append.1 hr with hr | hr
    · exact ih hr
    · rcases List.mem_cons.1 hr with hr | hr
      · cases op <;> cases hr
      · exact ih' hr

theorem bracketUnless (h : IsArithmetic keys words) (bare : Bool) :
    IsArithmetic keys (FormulaEngine.bracketUnless bare words) := by
  cases bare with
  | true => exact h
  | false => exact h.bracketed

theorem of_tree {t : Tree} (h : t.IsArithmetic keys) (place : Symbol.Place) :
    IsArithmetic keys (t.words place) := by
  induction h generalizing place with
  | integer numeral => exact .integer numeral
  | reference plain bound => exact .reference plain bound
  | negated _ ih => exact (IsArithmetic.negated (ih _)).bracketUnless _
  | joined computes _ _ ih ih' =>
    exact (IsArithmetic.joined computes (ih _) (ih' _)).bracketUnless _

end IsArithmetic

namespace Expression

section

variable {V : Type} [Operand V] (i : Interpretation V) (keys : String → Prop)

/-- What the words of an integer formula are read as. -/
inductive IsArithmetic : Expression (some (i.binaryOperator .list)) → Prop
  | integer {text : String} (numeral : IsNumeral text) :
    IsArithmetic (.primary (.term (Literal.value i (.integer text))))
  | reference {key : String} (plain : IsPlainKey key) (bound : keys key) :
    IsArithmetic (.primary (.reference (.braced key)))
  | bracketed {e : Expression (some (i.binaryOperator .list))} (inner : IsArithmetic e) :
    IsArithmetic (.primary (.bracketed e))
  | negated {e : Expression (some (i.binaryOperator .list))} (operand : IsArithmetic e) :
    IsArithmetic (.prefixed (UnaryOperator.negate.prefixSign i) e)
  | joined {op : BinaryOperator} {f : Int → Int → Int}
    {e e' : Expression (some (i.binaryOperator .list))} (computes : op.onIntegers? = some f)
    (left : IsArithmetic e) (right : IsArithmetic e') :
    IsArithmetic (.infixed (op.infixSign i) e e')

end

namespace IsArithmetic

variable {V : Type} [Operand V] {i : Interpretation V} {keys : String → Prop}

theorem compositional : Compositional (fun s => s = UnaryOperator.negate.prefixSign i)
    (fun s => ∃ (op : BinaryOperator) (f : Int → Int → Int),
      op.onIntegers? = some f ∧ s = op.infixSign i) (IsArithmetic i keys) where
  prefixed_iff := by
    refine ⟨fun h => ?_, ?_⟩
    · cases h with
      | negated operand => exact ⟨rfl, operand⟩
    · rintro ⟨rfl, operand⟩
      exact .negated operand
  infixed_iff := by
    refine ⟨fun h => ?_, ?_⟩
    · cases h with
      | joined computes left right => exact ⟨⟨_, _, computes, rfl⟩, left, right⟩
    · rintro ⟨⟨op, f, computes, rfl⟩, left, right⟩
      exact .joined computes left right

theorem exists_tree {e : Expression (some (i.binaryOperator .list))} (he : e.IsArithmetic i keys) :
    ∃ t : Tree, t.IsArithmetic keys ∧ e.postorder = instructions i t.code := by
  induction he with
  | integer numeral => exact ⟨_, .integer numeral, rfl⟩
  | reference plain bound => exact ⟨_, .reference plain bound, rfl⟩
  | bracketed _ ih => exact ih
  | negated _ ih =>
    obtain ⟨t, ht, hcode⟩ := ih
    exact ⟨_, .negated ht, Tree.postorder_prefixed i hcode .negate⟩
  | @joined op _ _ _ computes _ _ ih ih' =>
    obtain ⟨t, ht, hcode⟩ := ih
    obtain ⟨u, hu, hcode'⟩ := ih'
    exact ⟨_, .joined computes ht hu, Tree.postorder_infixed i hcode hcode' op⟩

end IsArithmetic

end Expression

namespace IsArithmetic

variable {keys : String → Prop} {words : List Word} {ignoreBlanks : Bool} {text : String}

theorem lex_eq (h : IsArithmetic keys words) (spells : Spells ignoreBlanks text.toList words) :
    lex ignoreBlanks text = .ok words := by
  have hapart := isChain_of_delimited fun r hr => h.delimited hr
  obtain ⟨pieces, hcuts, hread⟩ :=
    exists_cuts_of_spells spells h.isShown h.phrase.chain hapart []
  rw [lex_of_cuts hcuts, hread]

section

variable {V : Type} [Operand V] (i : Interpretation V)

theorem readAs (h : IsArithmetic keys words) :
    ReadAs i (Expression.IsArithmetic i keys) words := by
  induction h with
  | integer numeral => exact ⟨_, .integer numeral, trivial, rfl⟩
  | reference plain bound => exact ⟨_, .reference plain bound, trivial, rfl⟩
  | bracketed _ ih => exact ih.bracketed fun _ => .bracketed
  | negated _ ih => exact ih.prefixed Expression.IsArithmetic.compositional rfl
  | joined computes _ _ ih ih' =>
    exact ih.infixed Expression.IsArithmetic.compositional ⟨_, _, computes, rfl⟩ ih'

theorem exists_compile {g : Grammar V} (h : IsArithmetic keys words)
    (speaks : g.Speaks ignoreBlanks i) (read : lex ignoreBlanks text = .ok words) :
    ∃ t : Tree, t.IsArithmetic keys ∧ g.compile text = .ok ⟨instructions i t.code, text⟩ := by
  obtain ⟨e, he, hcompile⟩ := exists_compile_of_lex speaks read (h.readAs i)
  obtain ⟨t, ht, hcode⟩ := he.exists_tree
  exact ⟨t, ht, by rw [hcompile, hcode]⟩

end

end IsArithmetic

def Context.Assigns (ctx : Context) (keys : String → Prop) (env : String → Int64) : Prop :=
  ∀ key, keys key → ctx.lookup key = some (.value (.integer (env key)))

section

variable {o : Options} {text : String} {t : Tree} {keys : String → Prop} {ctx : Context}
  {env : String → Int64}

theorem Tree.IsArithmetic.resolves (h : t.IsArithmetic keys) (assigns : ctx.Assigns keys env)
    (deeper : List (Resolver Value)) : ∀ r, .reference r ∈ t.code →
      ctx.resolver deeper r = .ok (.value (.integer (env r.key))) := by
  intro r hr
  obtain ⟨hbound, hplain⟩ := h.of_reference_mem_code hr
  have hpoint : Wildcard.isPattern r.key.toList = false := by
    simpa [Wildcard.isPattern, Wildcard.star] using hplain.noStar
  simp only [Context.resolver, hpoint, Bool.false_eq_true, if_false, assigns r.key hbound,
    Binding.resolveWith]

/-- Evaluating the formula gives the exact value of its tree if no result is out of range. -/
theorem Formula.Denotes.exists_evaluate (h : Denotes o text t) (ht : t.IsArithmetic keys)
    (assigns : ctx.Assigns keys env) (fits : t.fits env = true) :
    ∃ n : Int64, n.toInt = t.exactValue env ∧ evaluate o ctx text = .ok (.integer n) := by
  obtain ⟨n, hn, hvalue⟩ := ht.exists_value fits o.strict
  exact ⟨n, hn, h.evaluate_eq ht.saturated (ht.resolves assigns _) hvalue⟩

end

/-- Simplifying an integer formula succeeds, and as long as no result is out of range, neither in
the formula nor in the simplified one, both have the same value: the exact one. -/
theorem optimize_keeps_integers (o o' : Options) {keys : String → Prop} {words : List Word}
    {text : String} (integers : IsArithmetic keys words)
    (spells : Spells o.ignoreBlanks text.toList words) :
    ∃ out t t', optimize o text = .ok out ∧ Denotes o text t ∧ Denotes o' out t' ∧
      ∀ (ctx : Context) (env : String → Int64), ctx.Assigns keys env →
        t.fits env = true → t'.fits env = true →
          ∃ n : Int64, n.toInt = t.exactValue env ∧ evaluate o ctx text = .ok (.integer n) ∧
            evaluate o' ctx out = .ok (.integer n) := by
  have hlex := integers.lex_eq spells
  obtain ⟨out, t, ht, hout, hdenotes, hreread⟩ := exists_denotes o o'
    (fun t (h : t.IsArithmetic keys) => h.saturated)
    (not_isBlankText_of_lex hlex integers.phrase.ne_nil)
    fun V _ i g speaks => integers.exists_compile i speaks hlex
  rw [Tree.folded_eq_self ht.flat] at hreread
  obtain ⟨hregrouped, hexact⟩ := ht.regrouped
  have hread : Denotes o' out t.regrouped :=
    hreread (isChain_of_delimited fun r hr => (IsArithmetic.of_tree ht .formula).delimited hr)
      t.regrouped hregrouped.saturated fun V _ i =>
        (Tree.postorder_expression_eq_iff i t .formula).2 ht.slips_eq_false
  refine ⟨out, t, t.regrouped, hout, hdenotes, hread, ?_⟩
  intro ctx env assigns fits fits'
  obtain ⟨n, hn, hevaluate⟩ := hdenotes.exists_evaluate ht assigns fits
  obtain ⟨m, hm, hevaluate'⟩ := hread.exists_evaluate hregrouped assigns fits'
  have hsame : m = n := Int64.toInt_inj.1 (by rw [hm, hn, hexact])
  rw [hsame] at hevaluate'
  exact ⟨n, hn, hevaluate, hevaluate'⟩

theorem optimize_keeps_integers_regrouped :
    optimize {} "-1 + (@\x7ba\x7d - 2)" = .ok "-1+@\x7ba\x7d-2" ∧
      evaluate {} (Context.empty.set "a" (.value (.integer 5))) "-1 + (@\x7ba\x7d - 2)" =
        .ok (.integer 2) ∧
      evaluate {} (Context.empty.set "a" (.value (.integer 5))) "-1+@\x7ba\x7d-2" =
        .ok (.integer 2) := by
  have hrun {allowed : List Char} {c : Char} (h : c ∈ allowed) : IsRun allowed [c] :=
    ⟨by simp, by simp [Fragment.unbounded], by simpa using h⟩
  have hone : IsArithmetic (· = "a") [.literal (.integer "1")] :=
    .integer ⟨hrun (by decide), by decide⟩
  have htwo : IsArithmetic (· = "a") [.literal (.integer "2")] :=
    .integer ⟨hrun (by decide), by decide⟩
  have hkey : IsArithmetic (· = "a") [.reference (.braced "a")] :=
    .reference ⟨hrun (by decide), by decide⟩ rfl
  have hinner := (@IsArithmetic.joined _ .subtract _ _ _ rfl hkey htwo).bracketed
  have hwords := @IsArithmetic.joined _ .add _ _ _ rfl hone.negated hinner
  have hspace : IsGap true [' '] := .inr ⟨rfl, hrun (by decide)⟩
  have hnone : IsGap true [] := .inl rfl
  have hspells : Spells true "-1 + (@\x7ba\x7d - 2)".toList
      [ .minus, .literal (.integer "1"), .sign (.between .add), .opening,
        .reference (.braced "a"), .minus, .literal (.integer "2"), .closing ] := by
    convert Spells.word hnone (.word hnone (.word hspace (.word hspace (.word hnone (.word hspace
      (.word hspace (.word hnone (.ends hnone)))))))) using 1
    decide
  have hoptimize : (optimize {} "-1 + (@\x7ba\x7d - 2)").toOption = some "-1+@\x7ba\x7d-2" := by
    rw [optimize, symbol_eq_compileAs]
    decide +kernel
  have hread : ∀ text ∈ ["-1 + (@\x7ba\x7d - 2)", "-1+@\x7ba\x7d-2"],
      (Formula.tree {} text).toOption.map (fun t =>
        (t.fits fun _ => 5, t.exactValue fun _ => 5)) = some (true, 2) := by
    simp only [tree_eq_compileAs]
    decide +kernel
  rw [toOption_eq_some] at hoptimize
  obtain ⟨out, t, t', hout, hdenotes, hdenotes', hsame⟩ :=
    optimize_keeps_integers {} {} hwords hspells
  rw [hoptimize, Except.ok.injEq] at hout
  subst hout
  have htree := hread "-1 + (@\x7ba\x7d - 2)" (by simp)
  have htree' := hread "-1+@\x7ba\x7d-2" (by simp)
  rw [hdenotes.tree] at htree
  rw [hdenotes'.tree] at htree'
  simp only [Except.toOption, Option.map_some, Option.some.injEq, Prod.mk.injEq] at htree htree'
  have hassigns : (Context.empty.set "a" (.value (.integer 5))).Assigns (· = "a") fun _ => 5 := by
    rintro _ rfl
    rfl
  obtain ⟨n, hn, hevaluate, hevaluate'⟩ := hsame _ _ hassigns htree.1 htree'.1
  have htwo : n = 2 := Int64.toInt_inj.1 (hn.trans htree.2)
  rw [htwo] at hevaluate hevaluate'
  exact ⟨hoptimize, hevaluate, hevaluate'⟩

end FormulaEngine
