import FormulaEngine.Proofs.Attaching
import FormulaEngine.Proofs.Denoting
import FormulaEngine.Proofs.LogicalTrees

/-!
# Logical formulas

Formulas of literals, references, negations, conjunctions and disjunctions as operators and as
calls, brackets and comments. All of them can be simplified, and wherever the references are bound
to values that are no lists, the formula and the simplified one have the same truth.
-/
namespace FormulaEngine

open Formula

/-- Words of a logical formula over some references. How the operators are grouped and what a
comment is on is left open. -/
inductive IsLogical (refs : Reference → Prop) : List Word → Prop
  | literal (l : Literal) : IsLogical refs [.literal l]
  | reference {r : Reference} (bound : refs r) : IsLogical refs [.reference r]
  | bracketed {words : List Word} (inner : IsLogical refs words) :
    IsLogical refs (.opening :: (words ++ [.closing]))
  | negated {words : List Word} (operand : IsLogical refs words) :
    IsLogical refs (UnaryOperator.word .not :: words)
  | joined {op : BinaryOperator} {absorbing : Bool} {words more : List Word}
    (joins : op.absorbing? = some absorbing) (left : IsLogical refs words)
    (right : IsLogical refs more) : IsLogical refs (words ++ op.word :: more)
  | called {f : Callee} {absorbing : Bool} {rows : List (List Word)}
    (joins : f.absorbing? = some absorbing) (each : ∀ row ∈ rows, IsLogical refs row) :
    IsLogical refs (.callee f :: .opening :: ([.separator].intercalate rows ++ [.closing]))
  | annotated {words : List Word} (subject : IsLogical refs words) (label : String) :
    IsLogical refs (words ++ [.comment label])

namespace Expression

section

variable {V : Type} [Operand V] (i : Interpretation V) (refs : Reference → Prop)

/-- What the words of a logical formula are read as. -/
inductive IsLogical : Expression (some (i.binaryOperator .list)) → Prop
  | primary {p : Primary (some (i.binaryOperator .list))} {t : Tree} (logical : t.IsLogical refs)
    (code : p.postorder = instructions i t.code) : IsLogical (.primary p)
  | negated {e : Expression (some (i.binaryOperator .list))} (operand : IsLogical e) :
    IsLogical (.prefixed (UnaryOperator.not.prefixSign i) e)
  | joined {op : BinaryOperator} {absorbing : Bool}
    {e e' : Expression (some (i.binaryOperator .list))} (joins : op.absorbing? = some absorbing)
    (left : IsLogical e) (right : IsLogical e') : IsLogical (.infixed (op.infixSign i) e e')

end

namespace IsLogical

variable {V : Type} [Operand V] {i : Interpretation V} {refs : Reference → Prop}
  {e : Expression (some (i.binaryOperator .list))}

theorem compositional : Compositional (fun s => s = UnaryOperator.not.prefixSign i)
    (fun s => ∃ (op : BinaryOperator) (absorbing : Bool),
      op.absorbing? = some absorbing ∧ s = op.infixSign i) (IsLogical i refs) where
  prefixed_iff := by
    refine ⟨fun h => ?_, ?_⟩
    · cases h with
      | negated operand => exact ⟨rfl, operand⟩
    · rintro ⟨rfl, operand⟩
      exact .negated operand
  infixed_iff := by
    refine ⟨fun h => ?_, ?_⟩
    · cases h with
      | joined joins left right => exact ⟨⟨_, _, joins, rfl⟩, left, right⟩
    · rintro ⟨⟨op, absorbing, joins, rfl⟩, left, right⟩
      exact .joined joins left right

theorem hasBareSeparator_eq_false (he : e.IsLogical i refs) : e.hasBareSeparator = false := by
  induction he with
  | primary logical code => rfl
  | negated _ ih => exact ih
  | @joined op _ _ _ joins _ _ ih ih' =>
    have hsign : (op.infixSign i).isSeparator = false := by
      cases op <;> first | rfl | cases joins
    rw [hasBareSeparator, hsign, ih, ih']
    rfl

theorem exists_tree (he : e.IsLogical i refs) :
    ∃ t : Tree, t.IsLogical refs ∧ e.postorder = instructions i t.code := by
  induction he with
  | primary logical code => exact ⟨_, logical, code⟩
  | negated _ ih =>
    obtain ⟨t, ht, hcode⟩ := ih
    exact ⟨_, .negated ht, Tree.postorder_prefixed i hcode .not⟩
  | @joined op _ _ _ joins _ _ ih ih' =>
    obtain ⟨t, ht, hcode⟩ := ih
    obtain ⟨u, hu, hcode'⟩ := ih'
    exact ⟨_, .joined joins ht hu, Tree.postorder_infixed i hcode hcode' op⟩

theorem bracketed (he : e.IsLogical i refs) :
    (Expression.primary (.bracketed e)).IsLogical i refs := by
  obtain ⟨t, ht, hcode⟩ := he.exists_tree
  exact .primary ht hcode

theorem annotated {p : Primary (some (i.binaryOperator .list))}
    (hp : (Expression.primary p).IsLogical i refs) (label : String) :
    (Expression.primary (.annotated p label)).IsLogical i refs := by
  cases hp with
  | primary logical code =>
    exact .primary (.annotated logical) (Tree.postorder_annotated i code label)

end IsLogical

end Expression

section

variable {V : Type} [Operand V] (i : Interpretation V) {refs : Reference → Prop}

theorem exists_arguments {rows : List (List Word)}
    (each : ∀ row ∈ rows, ReadAs i (Expression.IsLogical i refs) row) :
    ∃ (es : List (Expression (some (i.binaryOperator .list)))) (ts : List Tree),
      ArgumentsWellBracketed es ∧
      argumentTokens es = ([Word.separator].intercalate rows).map (Word.token i) ∧
      (∀ t ∈ ts, t.IsLogical refs) ∧ argumentsPostorder es = instructions i (Tree.codeAll ts) ∧
      es.length = rows.length ∧ ts.length = rows.length := by
  induction rows with
  | nil => exact ⟨[], [], trivial, rfl, nofun, rfl, rfl, rfl⟩
  | cons row rows ih =>
    obtain ⟨e, he, well, htokens⟩ := each row List.mem_cons_self
    obtain ⟨es, ts, wells, htokens', hts, hcode', hes, hlength⟩ :=
      ih fun ws hws => each ws (List.mem_cons_of_mem row hws)
    obtain ⟨t, ht, hcode⟩ := he.exists_tree
    refine ⟨e :: es, t :: ts, ⟨well, he.hasBareSeparator_eq_false, wells⟩, ?_,
      List.forall_mem_cons.2 ⟨ht, hts⟩, ?_, by simp [hes], by simp [hlength]⟩
    · match rows, es, hes with
      | [], [], _ => simp [argumentTokens, furtherTokens, htokens]
      | next :: rows, e' :: es, _ =>
        rw [List.intercalate_cons_cons, List.map_append, List.map_append, ← htokens', ← htokens,
          List.append_assoc]
        rfl
    · rw [argumentsPostorder, hcode, hcode', Tree.codeAll, instructions_append]

theorem IsLogical.readAs {words : List Word} (h : IsLogical refs words) :
    ReadAs i (Expression.IsLogical i refs) words := by
  induction h with
  | literal l => exact ⟨.primary (.term (l.value i)), .primary (.literal l) rfl, trivial, rfl⟩
  | @reference r bound =>
    exact ⟨.primary (.reference r), .primary (.reference bound) rfl, trivial, rfl⟩
  | bracketed _ ih => exact ih.bracketed fun _ he => he.bracketed
  | negated _ ih => exact ih.prefixed Expression.IsLogical.compositional rfl
  | joined joins _ _ ih ih' =>
    exact ih.infixed Expression.IsLogical.compositional ⟨_, _, joins, rfl⟩ ih'
  | @called f _ rows joins _ ih =>
    obtain ⟨es, ts, wells, htokens, hts, hcode, hes, hlength⟩ := exists_arguments i ih
    have hcall := Tree.postorder_call i hcode (hes.trans hlength.symm) f
    refine ⟨.primary (.call (f.symbol i) es), .primary (.called joins hts) hcall, wells, ?_⟩
    rw [Expression.tokens, Primary.tokens, htokens, List.map_cons, List.map_cons, List.map_append]
    rfl
  | annotated _ label ih =>
    exact ih.commented Expression.IsLogical.compositional fun _ hp => hp.annotated label

theorem IsLogical.ne_nil {words : List Word} (h : IsLogical refs words) : words ≠ [] := by
  induction h with
  | joined _ _ _ _ _ => simp
  | annotated _ _ _ => simp
  | _ => exact List.cons_ne_nil _ _

theorem IsLogical.exists_compile {words : List Word} {g : Grammar V} {ignoreBlanks : Bool}
    {text : String} (h : IsLogical refs words) (speaks : g.Speaks ignoreBlanks i)
    (read : lex ignoreBlanks text = .ok words) :
    ∃ t : Tree, t.IsLogical refs ∧ g.compile text = .ok ⟨instructions i t.code, text⟩ := by
  obtain ⟨e, he, hcompile⟩ := exists_compile_of_lex speaks read (h.readAs i)
  obtain ⟨t, ht, hcode⟩ := he.exists_tree
  exact ⟨t, ht, by rw [hcompile, hcode]⟩

end

/-- The reference is to one key, which is bound to a value that is no list, or to nothing. -/
structure Context.Settles (ctx : Context) (r : Reference) : Prop where
  point : Wildcard.isPattern r.key.toList = false
  single : ∀ b ∈ ctx.lookup r.key, b = .empty ∨ ∃ v : Value, b = .value v ∧ v.isList = false

/-- The value that a key is bound to; what is bound to nothing reads as null. -/
def Context.valueAt (ctx : Context) (key : String) : Value :=
  match ctx.lookup key with
  | some (.value v) => v
  | _ => .null

section

variable {ctx : Context} {r : Reference}

theorem Context.Settles.isList_valueAt (h : ctx.Settles r) :
    (ctx.valueAt r.key).isList = false := by
  rw [valueAt]
  split
  · rename_i v hv
    rcases h.single _ hv with heq | ⟨w, heq, hw⟩
    · cases heq
    · cases heq
      exact hw
  · rfl

theorem Context.Settles.resolver_eq (h : ctx.Settles r) (deeper : List (Resolver Value)) :
    ctx.resolver deeper r = .ok (.value (ctx.valueAt r.key)) := by
  simp only [resolver, h.point, Bool.false_eq_true, if_false, valueAt]
  cases hlookup : ctx.lookup r.key with
  | none => rfl
  | some b =>
    rcases h.single b hlookup with rfl | ⟨v, rfl, -⟩
    · rfl
    · rfl

variable {refs : Reference → Prop} {o : Options} {text : String} {t : Tree}

/-- Evaluating a logical formula gives a value with the truth of its tree. -/
theorem Formula.Denotes.exists_truth (h : Denotes o text t) (ht : t.IsLogical refs)
    (settled : ∀ r, refs r → ctx.Settles r) :
    ∃ v, evaluate o ctx text = .ok v ∧ v.truth = t.truth fun r => ctx.valueAt r.key := by
  obtain ⟨v, hvalue, -, htruth⟩ := ht.exists_value o.strict fun r hr =>
    (settled r hr).isList_valueAt
  exact ⟨v, h.evaluate_eq ht.saturated (fun r hr =>
    (settled r (ht.of_mem_code _ hr)).resolver_eq _) hvalue, htruth⟩

end

/-- Simplifying a logical formula succeeds, and wherever every reference is bound to a value that is
no list, or to nothing, the formula and the simplified one have values, and these have the same
truth. -/
theorem optimize_keeps_truth (o o' : Options) {refs : Reference → Prop} {words : List Word}
    {text : String} (logical : IsLogical refs words)
    (read : lex o.ignoreBlanks text = .ok words) :
    ∃ out, optimize o text = .ok out ∧
      ∀ ctx : Context, (∀ r, refs r → ctx.Settles r) →
        ∃ v w, evaluate o ctx text = .ok v ∧ evaluate o' ctx out = .ok w ∧ w.truth = v.truth := by
  obtain ⟨out, t, ht, hout, hdenotes, hread⟩ := exists_denotes o o'
    (fun t (h : t.IsLogical refs) => h.saturated) (not_isBlankText_of_lex read logical.ne_nil)
    fun V _ i g speaks => logical.exists_compile i speaks read
  have hfolded : t.folded.IsLogical refs := ht.folded
  have hdenotes' : Denotes o' out t.folded := by
    refine hread (hfolded.isChain_words .formula) t.folded hfolded.saturated fun V _ i => ?_
    rw [(t.folded.postorder_expression_eq_iff i .formula).2 hfolded.slips_eq_false,
      hfolded.regrouped_eq_self]
  refine ⟨out, hout, fun ctx settled => ?_⟩
  obtain ⟨v, hv, htruth⟩ := hdenotes.exists_truth ht settled
  obtain ⟨w, hw, htruth'⟩ := hdenotes'.exists_truth hfolded settled
  exact ⟨v, w, hv, hw, by rw [htruth', htruth, Tree.truth_folded]⟩

namespace Sample

def merged : String := "!(@a OR 'no') AND any(@b [hit], false, any(1))"

def refused : Context := Context.empty.set "a" (.value (.text "No"))

end Sample

open Sample in
theorem optimize_keeps_truth_merged :
    optimize {} merged = .ok "all(!any(@a,'no'),any(@b[hit],1))" ∧
      ∃ v w, evaluate {} refused merged = .ok v ∧
        evaluate {} refused "all(!any(@a,'no'),any(@b[hit],1))" = .ok w ∧
          w.truth = v.truth := by
  have ha : IsLogical (fun r => r.key = "a" ∨ r.key = "b") [.reference ⟨"@", "a", ""⟩] :=
    .reference (.inl rfl)
  have hb : IsLogical (fun r => r.key = "a" ∨ r.key = "b") [.reference ⟨"@", "b", ""⟩] :=
    .reference (.inr rfl)
  have hneither := (@IsLogical.joined _ .either _ _ _ rfl ha
    (.literal (.quoted "'" "no"))).bracketed.negated
  have hinner := @IsLogical.called (fun r => r.key = "a" ∨ r.key = "b") (.many .any) _
    [[.literal (.integer "1")]] rfl (List.forall_mem_singleton.2 (.literal _))
  have hany := @IsLogical.called _ (.many .any) _ [_, [.literal (.boolean false)], _] rfl
    (List.forall_mem_cons.2 ⟨hb.annotated "hit", List.forall_mem_cons.2
      ⟨.literal _, List.forall_mem_singleton.2 hinner⟩⟩)
  have hwords := @IsLogical.joined _ .both _ _ _ rfl hneither hany
  have hread : lex true merged = .ok
      [ .sign (.before .not), .opening, .reference ⟨"@", "a", ""⟩, .sign (.between .either),
        .literal (.quoted "'" "no"), .closing, .sign (.between .both), .callee (.many .any),
        .opening, .reference ⟨"@", "b", ""⟩, .comment "hit", .separator,
        .literal (.boolean false), .separator, .callee (.many .any), .opening,
        .literal (.integer "1"), .closing, .closing ] := by
    rw [← toOption_eq_some]
    decide +kernel
  have hoptimize : optimize {} merged = .ok "all(!any(@a,'no'),any(@b[hit],1))" := by
    rw [← toOption_eq_some, optimize, symbol_eq_compileAs]
    decide +kernel
  have hsettled : ∀ r : Reference, r.key = "a" ∨ r.key = "b" → refused.Settles r := by
    refine fun r hr => ⟨?_, fun b hb => ?_⟩
    · rcases hr with hr | hr <;> rw [hr] <;> decide
    · rcases hr with hr | hr
      · rw [hr] at hb
        cases hb
        exact .inr ⟨_, rfl, rfl⟩
      · rw [hr] at hb
        cases hb
  obtain ⟨out, hout, hsame⟩ := optimize_keeps_truth {} {} hwords hread
  rw [hoptimize, Except.ok.injEq] at hout
  subst hout
  exact ⟨hoptimize, hsame refused hsettled⟩

end FormulaEngine
