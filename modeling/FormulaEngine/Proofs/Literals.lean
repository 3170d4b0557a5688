import FormulaEngine.Proofs.Idempotence
import FormulaEngine.Proofs.Numerals
import FormulaEngine.Value.Text

/-!
# Literals that are read back

Values whose text is a formula for them. A scalar is written as one literal, with a minus, a die or
labels around it, and a list as its scalars between commas; the text is read as the tree of just
those words, and the tree comes to the value in every context.
-/
namespace FormulaEngine

open Formula

/-- The text ends where it should when it stands between two marks: a backslash comes right before
every mark in it, and none at its end. -/
def MarksEscaped (mark : Char) (s : String) : Prop :=
  (∀ before after, s.toList = before ++ mark :: after → before.getLast? = some '\\') ∧
    s.toList.getLast? ≠ some '\\'

namespace Value

/-- What a label can be put after. -/
inductive IsAtom : Value → Prop where
  | integer {n : Int64} (nonneg : 0 ≤ n) : IsAtom (.integer n)
  | boolean (b : Bool) : IsAtom (.boolean b)
  | null : IsAtom .null
  | quoted {mark : Char} (isMark : mark = '\'' ∨ mark = '"') {s : String}
      (escaped : MarksEscaped mark s) :
      IsAtom (.quoted (.text s) (String.singleton mark) (String.singleton mark))
  | named {subject : Value} (h : subject.IsAtom) {label : String}
      (free : ']' ∉ label.toList) : IsAtom (.named subject label)

/-- What can stand in a list. -/
inductive IsPlain : Value → Prop where
  | atom {v : Value} (h : v.IsAtom) : IsPlain v
  | integer {n : Int64} (greater : Int64.minValue < n) : IsPlain (.integer n)
  | roll {count sides : Int64} (hcount : 0 ≤ count) (hsides : 0 ≤ sides) :
      IsPlain (.roll count sides)

/-- What is written as a formula of literals alone. -/
inductive IsLiteral : Value → Prop where
  | plain {v : Value} (h : v.IsPlain) : IsLiteral v
  | list {items : List Value} (several : 2 ≤ items.length) (each : ∀ v ∈ items, v.IsPlain) :
      IsLiteral (.list items)

end Value

section Spelling

theorem encloses_of_not_mem {close : Char} {cs : List Char} (h : close ∉ cs) (previous : Char) :
    encloses false close previous cs = true := by
  induction cs generalizing previous with
  | nil => rfl
  | cons c cs ih =>
    have hc : c ≠ close := fun heq => h (heq ▸ List.mem_cons_self)
    have hcs : close ∉ cs := fun hmem => h (List.mem_cons_of_mem c hmem)
    simp [encloses, hc, ih hcs c]

/-- Where a backslash escapes the mark, every mark comes right after one, and the end does not. -/
theorem encloses_iff {close previous : Char} {cs : List Char} :
    encloses true close previous cs = true ↔
      (∀ before after, cs = before ++ close :: after →
        (previous :: before).getLast? = some '\\') ∧ (previous :: cs).getLast? ≠ some '\\' := by
  induction cs generalizing previous with
  | nil => simp [encloses]
  | cons c cs ih =>
    have hends : (previous :: c :: cs).getLast? = (c :: cs).getLast? := List.getLast?_cons_cons
    rw [encloses, Bool.and_eq_true, ih, hends, ← and_assoc]
    refine and_congr_left fun _ => ?_
    constructor
    · rintro ⟨hfirst, hrest⟩ before after heq
      cases before with
      | nil =>
        obtain ⟨rfl, rfl⟩ := List.cons.inj heq
        simpa using hfirst
      | cons b before =>
        obtain ⟨rfl, rfl⟩ := List.cons.inj heq
        rw [List.getLast?_cons_cons]
        exact hrest before after rfl
    · intro h
      refine ⟨?_, fun before after heq => ?_⟩
      · by_cases hc : c = close
        · have hprevious : previous = '\\' := by
            simpa using h [] cs (by rw [hc, List.nil_append])
          simp [hprevious]
        · simp [hc]
      · have hlast := h (c :: before) after (by rw [heq, List.cons_append])
        rwa [List.getLast?_cons_cons] at hlast

theorem marksEscaped_iff {mark : Char} (ne : mark ≠ '\\') {s : String} :
    MarksEscaped mark s ↔ encloses true mark mark s.toList = true := by
  have hlast : ∀ cs : List Char, (mark :: cs).getLast? = some '\\' ↔ cs.getLast? = some '\\' := by
    intro cs
    rw [List.getLast?_cons]
    cases cs.getLast? <;> simp [ne]
  simp only [encloses_iff, MarksEscaped, hlast, Ne]

theorem mem_digitChars {c : Char} (h : c.isDigit = true) : c ∈ Fragment.digitChars := by
  have hall : ∀ n < 58, 48 ≤ n → Char.ofNat n ∈ Fragment.digitChars := by decide
  obtain ⟨hlow, hhigh⟩ : 48 ≤ c.toNat ∧ c.toNat ≤ 57 := by
    simpa [Char.isDigit, UInt32.le_iff_toNat_le] using h
  rw [← Char.ofNat_toNat c]
  exact hall c.toNat (by omega) hlow

theorem isRun_numeral {n : Nat} (h : n < 2 ^ 64) :
    IsRun Fragment.digitChars (Integer.numeral n) := by
  have hlength : (Integer.numeral n).length ≤ 20 :=
    (Nat.length_toDigits_le_iff (by decide) (by decide)).2 (by omega)
  refine ⟨Integer.numeral_ne_nil n, ?_, fun c hc => mem_digitChars ?_⟩
  · have hbound : 20 ≤ Fragment.unbounded := by decide
    omega
  · exact Integer.isDigit_of_mem_numeral hc

theorem isRun_text {n : Int64} (nonneg : 0 ≤ n.toInt) :
    IsRun Fragment.digitChars (Integer.text n).toList := by
  have hbound := Int64.toInt_lt n
  rw [Integer.toList_text, if_neg (by omega), List.nil_append]
  exact isRun_numeral (by omega)

end Spelling

section Integers

/-- Every integer but the least one has an opposite, which is written after a minus. -/
theorem exists_opposite {n : Int64} (negative : n.toInt < 0) (greater : Int64.minValue < n) :
    ∃ m : Int64, 0 ≤ m.toInt ∧ Integer.negate? m = some n ∧
      Integer.text n = "-" ++ Integer.text m := by
  have hleast : -(2 ^ 63) < n.toInt := by
    have h := Int64.lt_iff_toInt_lt.1 greater
    rwa [Int64.toInt_minValue] at h
  have hopposite : (Int64.ofInt (-n.toInt)).toInt = -n.toInt :=
    Int64.toInt_ofInt_of_le (by omega) (by omega)
  refine ⟨Int64.ofInt (-n.toInt), by omega, ?_, ?_⟩
  · rw [Integer.negate?, hopposite, Int.neg_neg, Integer.ofInt?_toInt]
  · rw [← String.toList_inj, String.toList_append, Integer.toList_text, Integer.toList_text,
      hopposite, if_pos negative, if_neg (by omega), Int.natAbs_neg]
    rfl

end Integers

section Signs

variable {V : Type} [Operand V] {i : Interpretation V} {scopes : List (Resolver V)}
  {stack : Stack V} {a b v : V}

theorem execute_before {op : UnaryOperator} (h : i.unary op a = .ok v) :
    execute scopes [(Code.sign (.before op)).instruction i] (.value a :: stack) =
      .ok (.value v :: stack) := by
  refine execute_operation ?_
  change ((i.unary op a).bind _).map _ = Except.map _ (.ok _)
  rw [h]
  rfl

theorem execute_between {op : BinaryOperator} (h : i.binary op a b = .ok v) :
    execute scopes [(Code.sign (.between op)).instruction i] (.value b :: .value a :: stack) =
      .ok (.value v :: stack) := by
  refine execute_operation ?_
  change ((i.binary op a b).bind _).map _ = Except.map _ (.ok _)
  rw [h]
  rfl

end Signs

namespace Tree

/-- A tree that is read from the text of a value and comes to that value, whatever is bound. -/
structure Stands (t : Tree) (v : Value) : Prop where
  spelled : ∀ place, t.standsAt place = true → spelling (t.words place) = v.formulaText.toList
  shown : ∀ c ∈ t.code, c.IsShown
  keyless : ∀ place r, .reference r ∉ t.words place
  regrouped : t.regrouped = t
  keeps : t.slips = false
  executes : ∀ strict scopes stack,
    execute scopes (instructions (arithmetic strict) t.code) stack = .ok (.value v :: stack)

theorem standsAt_of_root? {t : Tree} (h : t.root? = none) (place : Symbol.Place) :
    t.standsAt place = true := by
  rw [standsAt, h]
  rfl

theorem standsAt_formula (t : Tree) : t.standsAt .formula = true := by
  unfold standsAt
  rcases t.root? with _ | ⟨op | op⟩
  · rfl
  · rfl
  · cases op <;> rfl

theorem reference_mem_bracketUnless {r : Reference} {bare : Bool} {words : List Word}
    (h : .reference r ∈ bracketUnless bare words) : .reference r ∈ words := by
  cases bare with
  | true => exact h
  | false => simpa [bracketUnless] using h

namespace Stands

theorem literal {l : Literal} {v : Value} (text : l.text = v.formulaText)
    (wellSpelled : l.WellSpelled) (value : ∀ strict, l.value (arithmetic strict) = v) :
    (Tree.literal l).Stands v where
  spelled _ _ := by simp [words, spelling, Word.text, text]
  shown c hc := by
    obtain rfl := List.mem_singleton.1 hc
    exact ⟨by rintro w ⟨⟩; exact wellSpelled, by simp⟩
  keyless place r hr := by cases List.mem_singleton.1 hr
  regrouped := rfl
  keeps := rfl
  executes strict scopes stack := by
    rw [← value strict]
    exact execute_operation rfl

theorem negated {t : Tree} {m n : Int64} (h : t.Stands (.integer m)) (bare : t.root? = none)
    (opposite : Integer.negate? m = some n) (text : Integer.text n = "-" ++ Integer.text m) :
    (Tree.prefixed .negate t).Stands (.integer n) where
  spelled place hplace := by
    have hoperand := h.spelled (.operand UnaryOperator.negate.precedence false)
      (standsAt_of_root? bare _)
    have hbare : place.admitsInfix UnaryOperator.negate.precedence = true := hplace
    rw [words, hbare, bracketUnless, if_pos rfl, spelling_cons, hoperand]
    exact (congrArg String.toList text).symm ▸ String.toList_append.symm
  shown c hc := by
    rcases List.mem_append.1 hc with hc | hc
    · exact h.shown c hc
    · obtain rfl := List.mem_singleton.1 hc
      exact ⟨by simp [Code.source?], by simp⟩
  keyless place r hr := by
    have hword := reference_mem_bracketUnless hr
    rcases List.mem_cons.1 hword with hr | hr
    · cases hr
    · exact h.keyless _ r hr
  regrouped := by rw [Tree.regrouped, h.regrouped]
  keeps := h.keeps
  executes strict scopes stack := by
    have hnegate : unary strict .negate (.integer m) = .ok (.integer n) := by
      simp [unary, negate, Value.plainInteger?, Value.latest, opposite, lenient]
    rw [code, instructions_append, execute_append, h.executes strict scopes stack, ok_bind]
    exact execute_before hnegate

/-- Dice and commas, which nothing is folded or regrouped under. -/
theorem infixed {t u : Tree} {a b v : Value} {op : BinaryOperator} (h : t.Stands a)
    (h' : u.Stands b) (joins : op = .dice ∨ op = .list)
    (left : t.standsAt op.leftPlace = true) (right : u.standsAt op.rightPlace = true)
    (text : v.formulaText = a.formulaText ++ op.symbol ++ b.formulaText)
    (value : ∀ strict, binary strict op a b = .ok v) : (Tree.infixed op t u).Stands v where
  spelled place hplace := by
    have hbare : op.standsAt place = true := hplace
    rw [words, hbare, bracketUnless, if_pos rfl, spelling_append, spelling_cons, h.spelled _ left,
      h'.spelled _ right, op.text_word, text, String.toList_append, String.toList_append,
      List.append_assoc]
  shown c hc := by
    rcases List.mem_append.1 hc with hc | hc
    · rcases List.mem_append.1 hc with hc | hc
      · exact h.shown c hc
      · exact h'.shown c hc
    · obtain rfl := List.mem_singleton.1 hc
      refine ⟨by simp [Code.source?], ?_⟩
      rintro _ ⟨⟩
      rcases joins with rfl | rfl <;> rfl
  keyless place r hr := by
    rcases List.mem_append.1 (reference_mem_bracketUnless hr) with hr | hr
    · exact h.keyless _ r hr
    · rcases List.mem_cons.1 hr with hr | hr
      · rcases joins with rfl | rfl <;> cases hr
      · exact h'.keyless _ r hr
  regrouped := by
    rw [Tree.regrouped, h.regrouped, h'.regrouped]
    cases u with
    | infixed op' x y => rcases joins with rfl | rfl <;> rfl
    | _ => rfl
  keeps := by
    rw [slips, h.keeps, h'.keeps]
    rcases joins with rfl | rfl <;> rfl
  executes strict scopes stack := by
    rw [code, instructions_append, instructions_append, execute_append, execute_append,
      h.executes, ok_bind, h'.executes, ok_bind]
    exact execute_between (value strict)

theorem annotated {t : Tree} {v : Value} (h : t.Stands v) (bare : t.root? = none) {label : String}
    (free : ']' ∉ label.toList) : (Tree.annotated t label).Stands (.named v label) where
  spelled _ _ := by
    rw [words, spelling_append, h.spelled .tight (standsAt_of_root? bare _)]
    simp [spelling, Word.text, Value.formulaText]
  shown c hc := by
    rcases List.mem_append.1 hc with hc | hc
    · exact h.shown c hc
    · obtain rfl := List.mem_singleton.1 hc
      refine ⟨?_, by simp⟩
      rintro w ⟨⟩
      exact encloses_of_not_mem free '['
  keyless _ r hr := by
    rcases List.mem_append.1 hr with hr | hr
    · exact h.keyless _ r hr
    · cases List.mem_singleton.1 hr
  regrouped := by rw [Tree.regrouped, h.regrouped]
  keeps := h.keeps
  executes strict scopes stack := by
    rw [code, instructions_append, execute_append, h.executes, ok_bind]
    exact execute_operation rfl

theorem parse {t : Tree} {v : Value} (h : t.Stands v) (o : Options) :
    Formula.parse o v.formulaText =
      .ok (.formula ⟨instructions (arithmetic o.strict) t.code, v.formulaText⟩) := by
  have hspelled := (h.spelled .formula t.standsAt_formula).symm
  have hshown := t.isShown_words h.shown .formula
  have hblank := not_isBlankText_of_words hspelled fun w hw => (hshown w hw).1
  have hapart := isChain_of_delimited fun r hr => absurd hr (h.keyless .formula r)
  rw [parse_of_words o hspelled hshown hapart hblank,
    (t.postorder_expression_eq_iff (arithmetic o.strict) .formula).2 h.keeps, h.regrouped]

/-- The text of a value that a tree stands for is a formula for that value. -/
theorem evaluate {t : Tree} {v : Value} (h : t.Stands v) (o : Options) (ctx : Context) :
    Formula.evaluate o ctx v.formulaText = .ok v := by
  have hrun := evaluate_eq_execute ctx.scopes
    ⟨instructions (arithmetic o.strict) t.code, v.formulaText⟩
  rw [h.executes, ok_bind] at hrun
  simp only [Formula.evaluate, h.parse o, Binding.resolve, Binding.resolveWith, hrun]
  rfl

end Stands

end Tree

namespace Value

theorem IsAtom.exists_stands {v : Value} (h : v.IsAtom) :
    ∃ t : Tree, t.root? = none ∧ t.Stands v := by
  induction h with
  | @integer n nonneg =>
    have hnonneg : 0 ≤ n.toInt := Int64.le_iff_toInt_le.1 nonneg
    refine ⟨.literal (.integer (Integer.text n)), rfl, .literal rfl (isRun_text hnonneg) ?_⟩
    intro strict
    simp [Literal.value, Operand.ofInteger, ofIntegerText, Integer.read?_text]
  | boolean b => exact ⟨.literal (.boolean b), rfl, .literal rfl trivial fun _ => rfl⟩
  | null => exact ⟨.literal .null, rfl, .literal rfl trivial fun _ => rfl⟩
  | @quoted mark isMark s escaped =>
    refine ⟨.literal (.quoted (String.singleton mark) s), rfl, .literal rfl ?_ fun _ => rfl⟩
    rcases isMark with rfl | rfl
    · exact .inr ⟨rfl, (marksEscaped_iff (by decide)).1 escaped⟩
    · exact .inl ⟨rfl, (marksEscaped_iff (by decide)).1 escaped⟩
  | named _ free ih =>
    obtain ⟨t, hroot, ht⟩ := ih
    exact ⟨_, rfl, ht.annotated hroot free⟩

theorem IsAtom.items {v : Value} (h : v.IsAtom) : v.items = [v] := by
  have hcontent : ∃ s, v.content = .scalar s := by
    induction h with
    | named _ _ ih => exact ih
    | _ => exact ⟨_, rfl⟩
  obtain ⟨s, hs⟩ := hcontent
  rw [Value.items, hs]

theorem IsPlain.items {v : Value} (h : v.IsPlain) : v.items = [v] := by
  cases h with
  | atom h => exact h.items
  | _ => rfl

theorem IsAtom.exists_stands_operand {v : Value} (h : v.IsAtom) :
    ∃ t : Tree, t.standsAt BinaryOperator.list.leftPlace = true ∧
      t.standsAt BinaryOperator.list.rightPlace = true ∧ t.Stands v := by
  obtain ⟨t, hroot, ht⟩ := h.exists_stands
  exact ⟨t, Tree.standsAt_of_root? hroot _, Tree.standsAt_of_root? hroot _, ht⟩

theorem IsPlain.exists_stands_operand {v : Value} (h : v.IsPlain) :
    ∃ t : Tree, t.standsAt BinaryOperator.list.leftPlace = true ∧
      t.standsAt BinaryOperator.list.rightPlace = true ∧ t.Stands v := by
  cases h with
  | atom h => exact h.exists_stands_operand
  | @integer n greater =>
    by_cases hn : 0 ≤ n
    · exact (IsAtom.integer hn).exists_stands_operand
    · have hnegative : n.toInt < 0 := Int64.lt_iff_toInt_lt.1 (Int64.not_le.1 hn)
      obtain ⟨m, hm, hopposite, htext⟩ := exists_opposite hnegative greater
      obtain ⟨t, hroot, ht⟩ := (IsAtom.integer (Int64.le_iff_toInt_le.2 hm)).exists_stands
      exact ⟨_, rfl, rfl, ht.negated hroot hopposite htext⟩
  | roll hcount hsides =>
    obtain ⟨t, ht, hcounted⟩ := (IsAtom.integer hcount).exists_stands
    obtain ⟨u, hu, hsided⟩ := (IsAtom.integer hsides).exists_stands
    exact ⟨_, rfl, rfl, hcounted.infixed hsided (.inl rfl) (Tree.standsAt_of_root? ht _)
      (Tree.standsAt_of_root? hu _) rfl fun _ => rfl⟩

theorem formulaText_concat {items : List Value} (ne : items ≠ []) (v : Value) :
    (Value.list (items ++ [v])).formulaText =
      (Value.list items).formulaText ++ "," ++ v.formulaText := by
  rw [formulaText, formulaText, formulaTexts_eq_map, formulaTexts_eq_map, List.map_append,
    String.intercalate_append_of_ne_nil (by simpa using ne) (by simp)]
  simp

/-- A list that ends in one more value has a comma more at the root of its tree. -/
theorem exists_stands_list {items : List Value} (several : 2 ≤ items.length)
    (each : ∀ v ∈ items, v.IsPlain) :
    ∃ t : Tree, t.standsAt BinaryOperator.list.leftPlace = true ∧ t.Stands (.list items) := by
  induction items using List.reverseRecOn with
  | nil => simp at several
  | append_singleton items v ih =>
    have hv : v.IsPlain := each v (by simp)
    have hitems : ∀ w ∈ items, w.IsPlain := fun w hw => each w (by simp [hw])
    have hne : items ≠ [] := by
      rintro rfl
      simp at several
    obtain ⟨u, _, hright, hu⟩ := hv.exists_stands_operand
    have htext := formulaText_concat hne v
    match items with
    | [w] =>
      obtain ⟨t, hleft, _, ht⟩ := (hitems w (by simp)).exists_stands_operand
      have hsingle : (Value.list [w]).formulaText = w.formulaText := by
        simp [formulaText, formulaTexts]
      rw [hsingle] at htext
      refine ⟨_, rfl, ht.infixed hu (.inr rfl) hleft hright htext fun strict => ?_⟩
      simp [binary, (hitems w (by simp)).items, hv.items]
    | w :: w' :: items =>
      obtain ⟨t, hleft, ht⟩ := ih (by simp) hitems
      refine ⟨_, rfl, ht.infixed hu (.inr rfl) hleft hright htext fun strict => ?_⟩
      simp only [binary, hv.items]
      rfl

/-- The formula text of a literal is a formula for that literal, in every context. -/
theorem evaluate_formulaText {v : Value} (literal : v.IsLiteral) (o : Options) (ctx : Context) :
    Formula.evaluate o ctx v.formulaText = .ok v := by
  cases literal with
  | plain h =>
    obtain ⟨t, _, _, ht⟩ := h.exists_stands_operand
    exact ht.evaluate o ctx
  | list several each =>
    obtain ⟨t, _, ht⟩ := exists_stands_list several each
    exact ht.evaluate o ctx

end Value

namespace Sample

/-- A list of scalars that bind differently, with marks, commas and brackets in its texts. -/
def literals : List Value :=
  [ .integer (-9223372036854775807), .roll 0 9223372036854775807,
    .quoted (.text "it\\'s, \"a\" ]") "'" "'",
    .named (.named (.quoted (.text "") "\"" "\"") "[1") "", .named .null "d, 'x", .boolean false ]

theorem isPlain_of_mem_literals : ∀ v ∈ literals, v.IsPlain := by
  have htext : MarksEscaped '\'' "it\\'s, \"a\" ]" := (marksEscaped_iff (by decide)).2 (by decide)
  have hempty : MarksEscaped '"' "" := (marksEscaped_iff (by decide)).2 (by decide)
  simp only [literals, List.forall_mem_cons]
  exact ⟨.integer (by decide), .roll (by decide) (by decide), .atom (.quoted (.inl rfl) htext),
    .atom (.named (.named (.quoted (.inr rfl) hempty) (by decide)) (by decide)),
    .atom (.named .null (by decide)), .atom (.boolean false), nofun⟩

end Sample

open Sample in
theorem evaluate_formulaText_literals :
    (Value.list literals).IsLiteral ∧
      Formula.evaluate {} .empty (Value.list literals).formulaText = .ok (.list literals) := by
  have hliteral : (Value.list literals).IsLiteral := .list (by decide) isPlain_of_mem_literals
  exact ⟨hliteral, Value.evaluate_formulaText hliteral {} .empty⟩

end FormulaEngine
