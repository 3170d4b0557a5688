import FormulaEngine.Proofs.Phrases
import FormulaEngine.Proofs.Readback

/-!
# Redrawing

The words of the tree that is read back. They are the words before, unless a multiplication slips:
then an opening bracket comes where the operand begins that was to be multiplied last.
-/
namespace FormulaEngine

open Formula

-- The number of brackets would not do for this: what is written `5*(2*3)<4*6` is written
-- `(5*2*3)<4*6` when it is read back.
/-- Where the second words first differ from the first ones they have an opening bracket. -/
inductive Raised : List Word → List Word → Prop where
  | here {w : Word} (h : w ≠ .opening) (rest rest' : List Word) :
    Raised (w :: rest) (.opening :: rest')
  | later (w : Word) {ws vs : List Word} (h : Raised ws vs) : Raised (w :: ws) (w :: vs)

namespace Raised

variable {ws vs us : List Word}

theorem append_left (more : List Word) (h : Raised ws vs) : Raised (more ++ ws) (more ++ vs) := by
  induction more with
  | nil => exact h
  | cons w more ih => exact ih.later w

theorem append (h : Raised ws vs) (more more' : List Word) : Raised (ws ++ more) (vs ++ more') := by
  induction h with
  | here h rest rest' => exact .here h _ _
  | later w _ ih => exact ih.later w

theorem trans (h : Raised ws vs) (h' : Raised vs us) : Raised ws us := by
  induction h generalizing us with
  | here hw rest rest' =>
    cases h' with
    | here hopening => exact absurd rfl hopening
    | later => exact .here hw _ _
  | later w _ ih =>
    cases h' with
    | here hw => exact .here hw _ _
    | later _ h' => exact (ih h').later w

theorem opening (h : ∃ w ∈ ws, w ≠ .opening) (more more' : List Word) :
    Raised (ws ++ more) (.opening :: (ws ++ more')) := by
  induction ws with
  | nil => simp at h
  | cons w ws ih =>
    by_cases hw : w = .opening
    · subst hw
      have hrest : ∃ w ∈ ws, w ≠ .opening := by simpa using h
      exact (ih hrest).later .opening
    · exact .here hw _ _

end Raised

theorem Word.exists_text {w : Word} (h : w.WellSpelled) :
    ∃ c cs, w.text.toList = c :: cs ∧ c ∈ w.firsts := by
  obtain ⟨c, cs, htext⟩ := List.exists_cons_of_ne_nil (text_ne_nil h)
  exact ⟨c, cs, htext, mem_firsts h c (by rw [htext]; rfl)⟩

theorem Raised.spelling_ne {ws vs : List Word} (h : Raised ws vs)
    (spelled : ∀ w ∈ ws, w.WellSpelled) : spelling vs ≠ spelling ws := by
  induction h with
  | @here w hw rest rest' =>
    intro heq
    obtain ⟨c, cs, htext, hc⟩ := Word.exists_text (spelled w List.mem_cons_self)
    rw [spelling_cons, spelling_cons, htext] at heq
    exact hw ((Word.of_mem_firsts hc).2 (List.cons.inj heq).1.symm)
  | later w _ ih =>
    intro heq
    rw [spelling_cons, spelling_cons] at heq
    exact ih (fun v hv => spelled v (List.mem_cons_of_mem w hv)) (List.append_cancel_left heq)

/-- The second words are the first ones, or raised from them. -/
inductive Redrawn : Bool → List Word → List Word → Prop where
  | same (ws : List Word) : Redrawn false ws ws
  | raised {ws vs : List Word} (h : Raised ws vs) : Redrawn true ws vs

namespace Redrawn

variable {late late' : Bool} {ws ws' vs vs' us : List Word}

theorem append (h : Redrawn late ws vs) (h' : Redrawn late' ws' vs') :
    Redrawn (late || late') (ws ++ ws') (vs ++ vs') := by
  cases h with
  | same =>
    cases h' with
    | same => exact .same _
    | raised h' => exact .raised (h'.append_left _)
  | raised h => exact .raised (h.append _ _)

theorem trans (h : Redrawn late ws vs) (h' : Redrawn late' vs us) :
    Redrawn (late || late') ws us := by
  cases h with
  | same => rwa [Bool.false_or]
  | raised h =>
    cases h' with
    | same => exact .raised h
    | raised h' => exact .raised (h.trans h')

theorem prepend (h : Redrawn late ws vs) (more : List Word) :
    Redrawn late (more ++ ws) (more ++ vs) := by
  have happend := (same more).append h
  rwa [Bool.false_or] at happend

theorem extend (h : Redrawn late ws vs) (more : List Word) :
    Redrawn late (ws ++ more) (vs ++ more) := by
  have happend := h.append (same more)
  rwa [Bool.or_false] at happend

theorem bracketUnless (h : Redrawn late ws vs) (bare : Bool) :
    Redrawn late (FormulaEngine.bracketUnless bare ws) (FormulaEngine.bracketUnless bare vs) := by
  cases bare with
  | true => exact h
  | false => exact (h.extend [.closing]).prepend [.opening]

theorem spelling_iff (h : Redrawn late ws vs) (spelled : ∀ w ∈ ws, w.WellSpelled) :
    spelling vs = spelling ws ↔ late = false := by
  cases h with
  | same => simp
  | raised h => simp [h.spelling_ne spelled]

end Redrawn

theorem Raised.trans_redrawn {late : Bool} {ws vs us : List Word} (h : Raised ws vs)
    (h' : Redrawn late vs us) : Raised ws us := by
  cases h' with
  | same => exact h
  | raised h' => exact h.trans h'

namespace Tree

theorem exists_ne_opening (t : Tree) (place : Symbol.Place) :
    ∃ w ∈ t.words place, w ≠ .opening := by
  obtain ⟨last, hlast, hends⟩ := (t.phrase place).ends
  refine ⟨last, List.mem_of_getLast? hlast, ?_⟩
  rintro rfl
  cases hends

theorem words_congr {t : Tree} {place place' : Symbol.Place}
    (h : t.standsAt place = t.standsAt place') : t.words place = t.words place' := by
  cases t with
  | prefixed op operand =>
    have hbare : place.admitsInfix op.precedence = place'.admitsInfix op.precedence := h
    rw [words, words, hbare]
  | infixed op left right =>
    have hbare : op.standsAt place = op.standsAt place' := h
    rw [words, words, hbare]
  | _ => rfl

section

variable {op op' : BinaryOperator} {place place' : Symbol.Place} {t : Tree}

theorem standsAt_eq_of_regroups (h : op.regroups op' = true) (place : Symbol.Place) :
    op'.standsAt place = op.standsAt place := by
  cases place with
  | mathOperand parent right =>
    cases op <;> cases op' <;> first | contradiction | (cases parent <;> rfl)
  | _ => cases op <;> cases op' <;> first | contradiction | rfl

theorem isTakenBy_of_regroups (h : op.regroups op' = true) : op.isTakenBy op' = true := by
  cases op <;> cases op' <;> first | contradiction | rfl

theorem isTakenBy_of_isComparison (h : op.isComparison = true) :
    BinaryOperator.isTakenBy .multiply op = true := by
  cases op <;> first | contradiction | rfl

theorem takesAt_rightPlace (h : t.regroupsUnder op = true) : t.takesAt op.rightPlace op = true := by
  obtain ⟨root, left, right, rfl, hroot⟩ := exists_of_regroupsUnder h
  exact Bool.and_eq_true_iff.2 ⟨standsAt_of_regroups hroot, isTakenBy_of_regroups hroot⟩

theorem takesAt_leftPlace (h : BinaryOperator.regroups .multiply op = true)
    (begins : t.beginsCompared = true) : t.takesAt op.leftPlace .multiply = true := by
  cases t with
  | infixed root left right =>
    refine Bool.and_eq_true_iff.2 ?_
    rw [beginsCompared, Bool.or_eq_true] at begins
    rcases begins with hcompared | hproduct
    · exact ⟨standsAt_leftPlace_of_isComparison h hcompared, isTakenBy_of_isComparison hcompared⟩
    · obtain ⟨hroot, _⟩ := Bool.and_eq_true_iff.1 hproduct
      exact ⟨standsAt_leftPlace_of_regroups h hroot, isTakenBy_of_regroups hroot⟩
  | _ => cases begins

theorem standsAt_eq_of_not_takesAt (h : op.regroups op' = true)
    (apart : t.takesAt op'.leftPlace op = false) :
    t.standsAt op'.leftPlace = t.standsAt op.rightPlace := by
  unfold Tree.standsAt takesAt at *
  revert apart
  rcases t.root? with _ | ⟨root | root⟩
  · exact fun _ => rfl
  · cases op <;> cases op' <;> first | contradiction | (cases root <;> decide)
  · cases op <;> cases op' <;> first | contradiction | (cases root <;> decide)

end

/-- The words of the tree that is read back, as a whole and after an operand and an operator. -/
structure Redraws (t : Tree) : Prop where
  whole (place : Symbol.Place) : Redrawn t.slips (t.words place) (t.reread.words place)
  right (op : BinaryOperator) (x : Tree) (place : Symbol.Place) :
    Redrawn (t.slips || (op == .multiply && t.regroupsUnder op && t.beginsCompared))
      (bracketUnless (op.standsAt place)
        (x.words op.leftPlace ++ op.word :: t.words op.rightPlace))
      ((t.readBack (some (op, x)) op.rightPlace).words place)
  /-- On the left of the operators that `op` regroups. -/
  left {op op' : BinaryOperator} (h : op.regroups op' = true) (x : Tree) :
    Redrawn (t.slips || (op == .multiply && t.beginsCompared))
      (x.words op.leftPlace ++ op.word :: t.words op'.leftPlace)
      ((t.readBack (some (op, x)) op'.leftPlace).words op'.leftPlace)
  /-- On the left of a comparison that a multiplication slips past. -/
  compared {op : BinaryOperator} (h : op.isComparison = true) (x : Tree) (more : List Word) :
    Raised (x.words (BinaryOperator.leftPlace .multiply) ++ more)
      ((t.readBack (some (.multiply, x)) op.leftPlace).words op.leftPlace)

section

variable {op root : BinaryOperator} {l r : Tree} (left : l.Redraws) (right : r.Redraws)

include left right

theorem redrawn_of_regroups (h : op.regroups root = true) {place : Symbol.Place}
    (stands : root.standsAt place = true) (taken : op.isTakenBy root = true) (x : Tree)
    (place' : Symbol.Place) :
    Redrawn ((infixed root l r).slips || (op == .multiply && (infixed root l r).beginsCompared))
      (bracketUnless (op.standsAt place')
        (x.words op.leftPlace ++ op.word :: (infixed root l r).words place))
      (((infixed root l r).readBack (some (op, x)) place).words place') := by
  have hlate :
      ((infixed root l r).slips || (op == .multiply && (infixed root l r).beginsCompared)) =
      ((l.slips || (op == .multiply && l.beginsCompared)) ||
        (r.slips || (root == .multiply && r.regroupsUnder root && r.beginsCompared))) := by
    have hbegins : (op == .multiply && (infixed root l r).beginsCompared) =
        (op == .multiply && l.beginsCompared) := by
      cases op <;> cases root <;> first | contradiction | rfl
    rw [hbegins, slips]
    ac_rfl
  have hwords : x.words op.leftPlace ++ op.word :: (infixed root l r).words place =
      (x.words op.leftPlace ++ op.word :: l.words root.leftPlace) ++
        root.word :: r.words root.rightPlace := by
    simp [words, stands, bracketUnless]
  have hleft := (left.left h x).extend (root.word :: r.words root.rightPlace)
  have hright := right.right root (l.readBack (some (op, x)) root.leftPlace) place'
  rw [hlate, hwords, readBack_of_takes stands taken, ← standsAt_eq_of_regroups h]
  exact (hleft.bracketUnless _).trans hright

/-- A comparison that a multiplication slips past: brackets are put around what it makes. -/
theorem raised_of_isComparison (h : root.isComparison = true) {place : Symbol.Place}
    (stands : root.standsAt place = true) (x : Tree) (more : List Word) :
    Raised (x.words (BinaryOperator.leftPlace .multiply) ++ more)
      (((infixed root l r).readBack (some (.multiply, x)) place).words place) := by
  have hleft := (left.compared h x more).append [] (root.word :: r.words root.rightPlace)
  have hright := right.right root (l.readBack (some (.multiply, x)) root.leftPlace) place
  rw [List.append_nil] at hleft
  rw [stands] at hright
  rw [readBack_of_takes stands (isTakenBy_of_isComparison h)]
  exact hleft.trans_redrawn hright

end

theorem redrawn_of_not_takesAt {t : Tree} {op : BinaryOperator} {place : Symbol.Place}
    (whole : Redrawn t.slips (t.words op.rightPlace) (t.reread.words op.rightPlace))
    (apart : t.takesAt place op = false) (x : Tree) (place' : Symbol.Place) :
    Redrawn t.slips
      (bracketUnless (op.standsAt place')
        (x.words op.leftPlace ++ op.word :: t.words op.rightPlace))
      ((t.readBack (some (op, x)) place).words place') := by
  rw [readBack_of_not_takesAt apart, words]
  exact ((whole.prepend [op.word]).prepend (x.words op.leftPlace)).bracketUnless _

theorem redraws_of_operands {t : Tree}
    (whole : ∀ place, Redrawn t.slips (t.words place) (t.reread.words place))
    (operands : ∀ op left right, t = infixed op left right → left.Redraws ∧ right.Redraws) :
    t.Redraws where
  whole := whole
  right op x place := by
    cases htakes : t.takesAt op.rightPlace op with
    | false =>
      have hunder : t.regroupsUnder op = false :=
        Bool.eq_false_iff.2 fun hunder => by simp [takesAt_rightPlace hunder] at htakes
      rw [hunder, Bool.and_false, Bool.false_and, Bool.or_false]
      exact redrawn_of_not_takesAt (whole _) htakes x place
    | true =>
      obtain ⟨root, l, r, rfl, stands, taken⟩ := exists_of_takesAt htakes
      obtain ⟨hl, hr⟩ := operands root l r rfl
      have hroot : op.regroups root = true := by
        rcases ((Follows.right op).isTakenBy_iff stands).1 taken with hroot | ⟨rfl, hcompared⟩
        · exact hroot
        · cases root <;> contradiction
      have hunder : (infixed root l r).regroupsUnder op = true := hroot
      rw [hunder, Bool.and_true]
      exact redrawn_of_regroups hl hr hroot stands taken x place
  left {op op'} h x := by
    have hstands : op.standsAt op'.leftPlace = true := by
      cases op <;> cases op' <;> first | contradiction | rfl
    cases htakes : t.takesAt op'.leftPlace op with
    | false =>
      have hbegins : (op == .multiply && t.beginsCompared) = false := by
        refine Bool.eq_false_iff.2 fun hbegins => ?_
        obtain ⟨hop, hbegins⟩ := Bool.and_eq_true_iff.1 hbegins
        obtain rfl := eq_of_beq hop
        simp [takesAt_leftPlace h hbegins] at htakes
      have hredrawn := redrawn_of_not_takesAt (whole _) htakes x op'.leftPlace
      rw [hbegins, Bool.or_false, words_congr (standsAt_eq_of_not_takesAt h htakes)]
      rwa [hstands] at hredrawn
    | true =>
      obtain ⟨root, l, r, rfl, stands, taken⟩ := exists_of_takesAt htakes
      obtain ⟨hl, hr⟩ := operands root l r rfl
      rcases ((Follows.regrouped h).isTakenBy_iff stands).1 taken with hroot | ⟨rfl, hcompared⟩
      · have hredrawn := redrawn_of_regroups hl hr hroot stands taken x op'.leftPlace
        rwa [hstands] at hredrawn
      · rw [beginsCompared, hcompared, Bool.true_or, beq_self_eq_true, Bool.and_true, Bool.or_true]
        exact .raised (raised_of_isComparison hl hr hcompared stands x _)
  compared {op} h x more := by
    cases htakes : t.takesAt op.leftPlace .multiply with
    | false =>
      have hbracketed : BinaryOperator.standsAt .multiply op.leftPlace = false := by
        cases op <;> first | contradiction | rfl
      rw [readBack_of_not_takesAt htakes, words, hbracketed]
      simp only [bracketUnless, Bool.false_eq_true, if_false, List.append_assoc]
      exact .opening (x.exists_ne_opening _) more _
    | true =>
      obtain ⟨root, l, r, rfl, stands, taken⟩ := exists_of_takesAt htakes
      obtain ⟨hl, hr⟩ := operands root l r rfl
      have hcompared : root.isComparison = true := by
        rcases ((Follows.compared h).isTakenBy_iff stands).1 taken with hroot | ⟨_, hcompared⟩
        · cases op <;> first | contradiction | (cases root <;> contradiction)
        · exact hcompared
      exact raised_of_isComparison hl hr hcompared stands x more

mutual

/-- The words of the tree that is read back are the words before, or raised if an operator
slips. -/
theorem redraws (t : Tree) : t.Redraws := by
  cases t with
  | literal l => exact redraws_of_operands (fun _ => .same _) nofun
  | reference r => exact redraws_of_operands (fun _ => .same _) nofun
  | prefixed op operand =>
    refine redraws_of_operands (fun place => ?_) nofun
    have hoperand := operand.redraws.whole (.operand op.precedence false)
    rw [reread_prefixed]
    exact (hoperand.prepend [op.word]).bracketUnless _
  | infixed op left right =>
    have hleft := left.redraws
    have hright := right.redraws
    refine redraws_of_operands (fun place => ?_) ?_
    · have hwords := (hleft.whole op.leftPlace).extend (op.word :: right.words op.rightPlace)
      rw [reread_infixed]
      exact (hwords.bracketUnless _).trans (hright.right op left.reread place)
    · rintro _ _ _ ⟨⟩
      exact ⟨hleft, hright⟩
  | call f arguments =>
    refine redraws_of_operands (fun place => ?_) nofun
    have harguments := redrawnAll arguments
    rw [reread_call]
    exact (harguments.extend [.closing]).prepend [.callee f, .opening]
  | annotated subject label =>
    refine redraws_of_operands (fun place => ?_) nofun
    rw [reread_annotated]
    exact (subject.redraws.whole .tight).extend [.comment label]

theorem redrawnAll (ts : List Tree) :
    Redrawn (anySlips ts) ([.separator].intercalate (wordsAll ts))
      ([.separator].intercalate (wordsAll (ts.map reread))) := by
  match ts with
  | [] => exact .same _
  | [t] =>
    have ht := t.redraws.whole .argument
    simpa [wordsAll, anySlips] using ht
  | t :: u :: ts =>
    have ht := (t.redraws.whole .argument).extend [.separator]
    have hrest := redrawnAll (u :: ts)
    rw [List.map_cons, List.map_cons, wordsAll, wordsAll, wordsAll, wordsAll,
      List.intercalate_cons_cons, List.intercalate_cons_cons, anySlips]
    exact ht.append hrest

end

theorem spelling_reread_iff {t : Tree} {place : Symbol.Place}
    (spelled : ∀ w ∈ t.words place, w.WellSpelled) :
    spelling (t.reread.words place) = spelling (t.words place) ↔ t.slips = false :=
  (t.redraws.whole place).spelling_iff spelled

end Tree

end FormulaEngine
