import FormulaEngine.Proofs.Bracketing
import FormulaEngine.Proofs.Regrouping

/-!
# Slipping

Where the words of a tree are not read as its normal form. A product or a quotient that begins with
a comparison is written without brackets after a multiplication, and the multiplication is read as
part of what is compared: it slips past the comparison, which then comes later in the code.
-/
namespace FormulaEngine

open Formula

namespace Formula.BinaryOperator

def isComparison : BinaryOperator → Bool
  | below => true
  | atMost => true
  | above => true
  | atLeast => true
  | equal => true
  | different => true
  | _ => false

end Formula.BinaryOperator

section Measures

variable {V : Type}

def comparisonSymbols : List String := ["<", "<=", ">", ">=", "==", "!="]

def Instruction.isComparison : Instruction V → Bool
  | .operator op => comparisonSymbols.contains op.symbol
  | _ => false

def comparisons (code : List (Instruction V)) : Nat := code.countP Instruction.isComparison

/-- How late the comparisons come: the number of instructions before each of them, summed up. -/
def lateness : List (Instruction V) → Nat
  | [] => 0
  | _ :: code => lateness code + comparisons code

theorem comparisons_append (c d : List (Instruction V)) :
    comparisons (c ++ d) = comparisons c + comparisons d :=
  List.countP_append

theorem lateness_append (c d : List (Instruction V)) :
    lateness (c ++ d) = lateness c + lateness d + c.length * comparisons d := by
  induction c with
  | nil => simp [lateness]
  | cons i c ih =>
    simp only [List.cons_append, lateness, ih, comparisons_append, List.length_cons,
      Nat.succ_mul]
    omega

theorem toNat_or_le (a b : Bool) : (a || b).toNat ≤ a.toNat + b.toNat := by
  cases a <;> cases b <;> decide

/-- The second code is the first one, or has the same comparisons at later places. -/
structure Shifted (late : Bool) (c d : List (Instruction V)) : Prop where
  same : late = false → c = d
  length : c.length = d.length
  comparisons : comparisons c = comparisons d
  lateness : lateness c + late.toNat ≤ lateness d

namespace Shifted

variable {late late' : Bool} {c c' d d' e : List (Instruction V)}

theorem refl (c : List (Instruction V)) : Shifted false c c :=
  ⟨fun _ => rfl, rfl, rfl, Nat.le_refl _⟩

theorem append (h : Shifted late c d) (h' : Shifted late' c' d') :
    Shifted (late || late') (c ++ c') (d ++ d') where
  same hlate := by
    obtain ⟨hl, hl'⟩ := Bool.or_eq_false_iff.1 hlate
    rw [h.same hl, h'.same hl']
  length := by rw [List.length_append, List.length_append, h.length, h'.length]
  comparisons := by rw [comparisons_append, comparisons_append, h.comparisons, h'.comparisons]
  lateness := by
    have hle := h.lateness
    have hle' := h'.lateness
    have htoNat := toNat_or_le late late'
    rw [lateness_append, lateness_append, h.length, h'.comparisons]
    omega

theorem trans (h : Shifted late c d) (h' : Shifted late' d e) : Shifted (late || late') c e where
  same hlate := by
    obtain ⟨hl, hl'⟩ := Bool.or_eq_false_iff.1 hlate
    rw [h.same hl, h'.same hl']
  length := h.length.trans h'.length
  comparisons := h.comparisons.trans h'.comparisons
  lateness := by
    have hle := h.lateness
    have hle' := h'.lateness
    have htoNat := toNat_or_le late late'
    omega

theorem swap {i : Instruction V} (hi : i.isComparison = false)
    (hc : 0 < FormulaEngine.comparisons c) :
    Shifted true (c ++ [i]) ([i] ++ c) where
  same := nofun
  length := by simp
  comparisons := by rw [comparisons_append, comparisons_append, Nat.add_comm]
  lateness := by
    have hnone : FormulaEngine.comparisons [i] = 0 := by simp [FormulaEngine.comparisons, hi]
    rw [lateness_append, lateness_append, hnone]
    simp only [FormulaEngine.lateness, List.length_singleton, Bool.toNat_true]
    omega

theorem ne (h : Shifted true c d) : c ≠ d := by
  rintro rfl
  have hlate : FormulaEngine.lateness c + 1 ≤ FormulaEngine.lateness c := h.lateness
  omega

end Shifted

end Measures

namespace Tree

def isCompared (t : Tree) : Bool :=
  match t.root? with
  | some (.between op) => op.isComparison
  | _ => false

/-- The leftmost operand of a product or a quotient is a comparison, or the tree itself is. -/
def beginsCompared : Tree → Bool
  | infixed op left _ =>
    op.isComparison || (BinaryOperator.regroups .multiply op && left.beginsCompared)
  | _ => false

mutual

/-- Somewhere a product or a quotient that begins with a comparison is multiplied from the left. -/
def slips : Tree → Bool
  | literal _ => false
  | reference _ => false
  | prefixed _ operand => operand.slips
  | infixed op left right =>
    left.slips ||
      (right.slips || (op == .multiply && right.regroupsUnder op && right.beginsCompared))
  | call _ arguments => anySlips arguments
  | annotated subject _ => subject.slips

def anySlips : List Tree → Bool
  | [] => false
  | t :: ts => t.slips || anySlips ts

end

section

variable {t : Tree} {op op' : BinaryOperator}

theorem precedence_lt_of_leftPlace (h : op.regroups op' = true)
    (stands : t.standsAt op'.leftPlace = true) (apart : t.regroupsUnder op = false)
    (uncompared : op = .multiply → t.isCompared = false) : op.precedence < t.level := by
  unfold level standsAt regroupsUnder isCompared at *
  revert stands apart uncompared
  rcases t.root? with _ | ⟨root | root⟩
  · cases op <;> cases op' <;> first | contradiction | decide
  · cases op <;> cases op' <;> first | contradiction | (cases root <;> decide)
  · cases op <;> cases op' <;> first | contradiction | (cases root <;> decide)

theorem precedence_lt_of_rightPlace (stands : t.standsAt op.rightPlace = true)
    (apart : t.regroupsUnder op = false) : op.precedence < t.level ∨ op = .power := by
  unfold level standsAt regroupsUnder at *
  revert stands apart
  rcases t.root? with _ | ⟨root | root⟩
  · cases op <;> decide
  · cases op <;> cases root <;> decide
  · cases op <;> cases root <;> decide

theorem precedence_lt_of_compared (h : op.isComparison = true)
    (stands : t.standsAt op.leftPlace = true) (uncompared : t.isCompared = false) :
    BinaryOperator.precedence .multiply < t.level := by
  unfold level standsAt isCompared at *
  revert stands uncompared
  rcases t.root? with _ | ⟨root | root⟩
  · cases op <;> first | contradiction | decide
  · cases op <;> first | contradiction | (cases root <;> decide)
  · cases op <;> first | contradiction | (cases root <;> decide)

theorem regroupsUnder_of_isComparison (h : op.isComparison = true) (t : Tree) :
    t.regroupsUnder op = false := by
  unfold regroupsUnder
  rcases t.root? with _ | ⟨root | root⟩
  · rfl
  · rfl
  · cases op <;> first | contradiction | (cases root <;> rfl)

theorem standsAt_of_regroups (h : op.regroups op' = true) :
    op'.standsAt op.rightPlace = true := by
  cases op <;> cases op' <;> first | contradiction | rfl

theorem standsAt_leftPlace_of_regroups {root : BinaryOperator} (h : op.regroups op' = true)
    (hroot : op.regroups root = true) : root.standsAt op'.leftPlace = true := by
  cases op <;> cases op' <;> first | contradiction | (cases root <;> first | contradiction | rfl)

theorem standsAt_leftPlace_of_isComparison
    (h : BinaryOperator.regroups .multiply op' = true) (hop : op.isComparison = true) :
    op.standsAt op'.leftPlace = true := by
  cases op' <;> first | contradiction | (cases op <;> first | contradiction | rfl)

theorem standsAt_comparison (h : op'.isComparison = true) (hop : op.isComparison = true) :
    op.standsAt op'.leftPlace = true := by
  cases op' <;> first | contradiction | (cases op <;> first | contradiction | rfl)

end

section

variable {V : Type} [Operand V] (i : Interpretation V)

/-- What the words of a tree are read as is its regrouped code, or later than that if an operator
slips: as a whole, and before an operator that comes from the left. -/
structure Agrees (t : Tree) : Prop where
  whole (place : Symbol.Place) :
    Shifted t.slips (instructions i t.regrouped.code) (t.expression i place).postorder
  /-- On the left of the operators that `op` regroups. -/
  left {op op' : BinaryOperator} (h : op.regroups op' = true) :
    Shifted (t.slips || (op == .multiply && t.beginsCompared))
      (instructions i (t.regrouped.codeWith op))
      ((t.expression i op'.leftPlace).postorderWith (op.infixSign i))
  right (op : BinaryOperator) :
    Shifted (t.slips || (op == .multiply && t.regroupsUnder op && t.beginsCompared))
      (instructions i (t.regrouped.codeWith op))
      ((t.expression i op.rightPlace).postorderWith (op.infixSign i))
  /-- On the left of a comparison that a multiplication slips past. -/
  compared {op : BinaryOperator} (h : op.isComparison = true) :
    Shifted (t.slips || t.isCompared)
      (instructions i (t.regrouped.code ++ [.sign (.between .multiply)]))
      ((t.expression i op.leftPlace).postorderWith (BinaryOperator.infixSign i .multiply))

variable {i}

theorem shifted_of_holds {t : Tree} {place : Symbol.Place} {op : BinaryOperator}
    (whole : Shifted t.slips (instructions i t.regrouped.code) (t.expression i place).postorder)
    (holds : ∀ top ∈ (t.expression i place).leftSpine,
      top.yieldsTo (i.binaryOperator op) = false) :
    Shifted t.slips (instructions i (t.regrouped.code ++ [.sign (.between op)]))
      ((t.expression i place).postorderWith (op.infixSign i)) := by
  have hpostorder := Expression.postorderWith_of_holds (op.infixSign i)
    (e := t.expression i place) (by simpa using holds)
  rw [hpostorder, op_infixSign, instructions, List.map_append]
  have happend := whole.append (.refl [.operator (i.binaryOperator op)])
  rw [Bool.or_false] at happend
  exact happend

theorem holds_of_precedence_lt {t : Tree} {place : Symbol.Place} {op : BinaryOperator}
    (lt : t.standsAt place = true → op.precedence < t.level) :
    ∀ top ∈ (t.expression i place).leftSpine, top.yieldsTo (i.binaryOperator op) = false := by
  intro top htop
  obtain ⟨hstands, b, rfl, hlevel⟩ := of_mem_leftSpine i htop
  exact Operator.yieldsTo_eq_false (Nat.lt_of_lt_of_le (lt hstands) hlevel)

theorem holds_rightPlace {t : Tree} {op : BinaryOperator} (apart : t.regroupsUnder op = false) :
    ∀ top ∈ (t.expression i op.rightPlace).leftSpine,
      top.yieldsTo (i.binaryOperator op) = false := by
  intro top htop
  obtain ⟨hstands, b, rfl, hlevel⟩ := of_mem_leftSpine i htop
  rcases precedence_lt_of_rightPlace hstands apart with hlt | rfl
  · exact Operator.yieldsTo_eq_false (Nat.lt_of_lt_of_le hlt hlevel)
  · have hpower := Nat.le_trans (level_of_standsAt_rightPlace hstands) hlevel
    cases b <;> first | rfl | exact absurd hpower (by decide)

section

variable {op op' : BinaryOperator} {l r : Tree} (left : l.Agrees i) (right : r.Agrees i)

include left right

theorem shifted_infixed (place : Symbol.Place) :
    Shifted (infixed op l r).slips (instructions i (infixed op l r).regrouped.code)
      ((infixed op l r).expression i place).postorder := by
  rw [expression, Expression.postorder_bracketUnless, Expression.postorder_join, regrouped,
    code_regroup, instructions, List.map_append]
  exact (left.whole op.leftPlace).append (right.right op)

theorem shifted_regrouped (h : op.regroups op' = true) {place : Symbol.Place}
    (stands : op'.standsAt place = true) :
    Shifted ((infixed op' l r).slips || (op == .multiply && (infixed op' l r).beginsCompared))
      (instructions i ((infixed op' l r).regrouped.codeWith op))
      (((infixed op' l r).expression i place).postorderWith (op.infixSign i)) := by
  have hyields : (op'.infixSign i).op.yieldsTo (op.infixSign i).op = true ∧
      (op'.infixSign i).op.precedence = (op.infixSign i).op.precedence := by
    cases op <;> cases op' <;> first | contradiction | exact ⟨rfl, rfl⟩
  have hlate : ((infixed op' l r).slips || (op == .multiply && (infixed op' l r).beginsCompared)) =
      (l.slips || (op == .multiply && l.beginsCompared) ||
        (r.slips || (op' == .multiply && r.regroupsUnder op' && r.beginsCompared))) := by
    have hbegins : (op == .multiply && (infixed op' l r).beginsCompared) =
        (op == .multiply && l.beginsCompared) := by
      cases op <;> cases op' <;> first | contradiction | rfl
    rw [hbegins, slips]
    ac_rfl
  rw [expression, stands, hlate, regrouped, codeWith_regroup h, instructions, List.map_append]
  simp only [Expression.bracketUnless, if_true]
  rw [Expression.postorderWith_join _ _ hyields.1 hyields.2]
  exact (left.left h).append (right.right op')

/-- A comparison on the left, which the multiplication before it slips past. -/
theorem shifted_compared (h : op.isComparison = true) {place : Symbol.Place}
    (stands : op.standsAt place = true) :
    Shifted true
      (instructions i ((infixed op l r).regrouped.code ++ [.sign (.between .multiply)]))
      (((infixed op l r).expression i place).postorderWith
        (BinaryOperator.infixSign i .multiply)) := by
  have hyields : (op.infixSign i).op.yieldsTo (BinaryOperator.infixSign i .multiply).op = true ∧
      (op.infixSign i).op.precedence = (BinaryOperator.infixSign i .multiply).op.precedence := by
    cases op <;> first | contradiction | exact ⟨rfl, rfl⟩
  have hcomparison : 0 < comparisons (instructions i (r.regrouped.codeWith op)) := by
    have hlast : (Instruction.operator (i.binaryOperator op)).isComparison = true := by
      cases op <;> first | contradiction | rfl
    rw [codeWith_of_not_regroupsUnder (regroupsUnder_of_isComparison h _), instructions,
      List.map_append, comparisons_append]
    simp [comparisons, Code.instruction, Sign.operator, hlast]
  have hswap := Shifted.swap (i := .operator (i.binaryOperator .multiply)) rfl hcomparison
  have hslip := (Shifted.refl (instructions i l.regrouped.code)).append hswap
  have hrest := (left.compared h).append (right.right op)
  rw [expression, stands, regrouped, code_regroup]
  simp only [Expression.bracketUnless, if_true]
  rw [Expression.postorderWith_join _ _ hyields.1 hyields.2]
  simp only [instructions, List.map_append, List.append_assoc] at hslip hrest ⊢
  exact hslip.trans hrest

end

theorem beginsCompared_eq_isCompared {t : Tree}
    (apart : t.regroupsUnder .multiply = false) : t.beginsCompared = t.isCompared := by
  cases t with
  | infixed op left right =>
    have hop : BinaryOperator.regroups .multiply op = false := apart
    simp [beginsCompared, isCompared, root?, hop]
  | _ => rfl

theorem exists_of_regroupsUnder {t : Tree} {op : BinaryOperator}
    (h : t.regroupsUnder op = true) :
    ∃ op' left right, t = infixed op' left right ∧ op.regroups op' = true := by
  cases t with
  | infixed op' left right => exact ⟨op', left, right, rfl, h⟩
  | _ => cases h

theorem exists_of_isCompared {t : Tree} (h : t.isCompared = true) :
    ∃ op left right, t = infixed op left right ∧ op.isComparison = true := by
  cases t with
  | infixed op left right => exact ⟨op, left, right, rfl, h⟩
  | _ => cases h

theorem agrees_of_operands {t : Tree}
    (whole : ∀ place,
      Shifted t.slips (instructions i t.regrouped.code) (t.expression i place).postorder)
    (operands : ∀ op left right, t = infixed op left right → left.Agrees i ∧ right.Agrees i) :
    t.Agrees i where
  whole := whole
  left {op op'} h := by
    cases hunder : t.regroupsUnder op with
    | true =>
      obtain ⟨root, l, r, rfl, hroot⟩ := exists_of_regroupsUnder hunder
      obtain ⟨hl, hr⟩ := operands root l r rfl
      exact shifted_regrouped hl hr hroot (standsAt_leftPlace_of_regroups h hroot)
    | false =>
      rw [codeWith_of_not_regroupsUnder (by rwa [regroupsUnder_regrouped])]
      by_cases hslips : op = .multiply ∧ t.isCompared = true
      · obtain ⟨rfl, hcompared⟩ := hslips
        obtain ⟨root, l, r, rfl, hroot⟩ := exists_of_isCompared hcompared
        obtain ⟨hl, hr⟩ := operands root l r rfl
        rw [beginsCompared_eq_isCompared hunder, hcompared, Bool.and_true, beq_self_eq_true,
          Bool.or_true]
        exact shifted_compared hl hr hroot (standsAt_leftPlace_of_isComparison h hroot)
      · have huncompared : op = .multiply → t.isCompared = false :=
          fun hop => Bool.eq_false_iff.2 fun hcompared => hslips ⟨hop, hcompared⟩
        have hflag : (op == .multiply && t.beginsCompared) = false := by
          by_cases hop : op = .multiply
          · subst hop
            rw [beginsCompared_eq_isCompared hunder, huncompared rfl, Bool.and_false]
          · simp [hop]
        rw [hflag, Bool.or_false]
        exact shifted_of_holds (whole _) (holds_of_precedence_lt fun hstands =>
          precedence_lt_of_leftPlace h hstands hunder huncompared)
  right op := by
    cases hunder : t.regroupsUnder op with
    | true =>
      obtain ⟨root, l, r, rfl, hroot⟩ := exists_of_regroupsUnder hunder
      obtain ⟨hl, hr⟩ := operands root l r rfl
      rw [Bool.and_true]
      exact shifted_regrouped hl hr hroot (standsAt_of_regroups hroot)
    | false =>
      rw [codeWith_of_not_regroupsUnder (by rwa [regroupsUnder_regrouped]), Bool.and_false,
        Bool.false_and, Bool.or_false]
      exact shifted_of_holds (whole _) (holds_rightPlace hunder)
  compared {op} h := by
    cases hcompared : t.isCompared with
    | true =>
      obtain ⟨root, l, r, rfl, hroot⟩ := exists_of_isCompared hcompared
      obtain ⟨hl, hr⟩ := operands root l r rfl
      rw [Bool.or_true]
      exact shifted_compared hl hr hroot (standsAt_comparison h hroot)
    | false =>
      rw [Bool.or_false]
      exact shifted_of_holds (whole _) (holds_of_precedence_lt fun hstands =>
        precedence_lt_of_compared h hstands hcompared)

variable (i)

theorem shifted_arguments {ts : List Tree} (h : ∀ t ∈ ts, t.Agrees i) :
    Shifted (anySlips ts) (instructions i (codeAll (regroupedAll ts)))
      (argumentsPostorder (expressions i ts)) := by
  induction ts with
  | nil => exact .refl []
  | cons t ts ih =>
    have ht := (h t (by simp)).whole .argument
    have hts := ih fun u hu => h u (List.mem_cons_of_mem t hu)
    rw [regroupedAll, codeAll, instructions, List.map_append]
    exact ht.append hts

theorem agrees (t : Tree) : t.Agrees i := by
  cases t with
  | literal l => exact agrees_of_operands (fun _ => .refl _) (by simp)
  | reference r => exact agrees_of_operands (fun _ => .refl _) (by simp)
  | prefixed op operand =>
    refine agrees_of_operands (fun place => ?_) (by simp)
    have hoperand := (operand.agrees).whole (.operand op.precedence false)
    have hall := hoperand.append (.refl [.operator (i.unaryOperator op)])
    rw [Bool.or_false] at hall
    rw [expression, Expression.postorder_bracketUnless, Expression.postorder, op_prefixSign,
      regrouped, code, instructions, List.map_append]
    exact hall
  | infixed op left right =>
    refine agrees_of_operands (fun place => shifted_infixed left.agrees right.agrees place) ?_
    rintro _ _ _ ⟨⟩
    exact ⟨left.agrees, right.agrees⟩
  | call f arguments =>
    refine agrees_of_operands (fun place => ?_) (by simp)
    have harguments : Shifted (anySlips arguments)
        (instructions i (codeAll (regroupedAll arguments)))
        (argumentsPostorder (expressions i arguments)) :=
      shifted_arguments i fun t _ => t.agrees
    have hlength : (expressions i arguments).length = (regroupedAll arguments).length := by
      rw [length_expressions, regroupedAll_eq_map, List.length_map]
    have hall := harguments.append (.refl (callCode (f.symbol i) (expressions i arguments).length))
    rw [Bool.or_false] at hall
    rw [expression, Expression.postorder, Primary.postorder, regrouped, code, instructions,
      List.map_append, ← instructions, ← instructions, ← callCode_symbol, ← hlength]
    exact hall
  | annotated subject label =>
    refine agrees_of_operands (fun place => ?_) (by simp)
    have hsubject := (subject.agrees).whole .tight
    have hall := hsubject.append (.refl [.comment label])
    rw [Bool.or_false] at hall
    rw [expression, Expression.postorder, Primary.postorder, Expression.postorder_toPrimary,
      regrouped, code, instructions, List.map_append]
    exact hall

/-- The words of a tree are read as its regrouped code if and only if nothing slips. -/
theorem postorder_expression_eq_iff (t : Tree) (place : Symbol.Place) :
    (t.expression i place).postorder = instructions i t.regrouped.code ↔ t.slips = false := by
  have hshifted := (t.agrees i).whole place
  constructor
  · intro heq
    refine Bool.eq_false_iff.2 fun hslips => ?_
    rw [hslips] at hshifted
    exact hshifted.ne heq.symm
  · intro hslips
    exact (hshifted.same hslips).symm

end

example : (infixed .multiply (literal (.integer "5")) (infixed .multiply
    (infixed .below (literal (.integer "2")) (literal (.integer "3")))
    (literal (.integer "4")))).slips = true := rfl

end Tree

end FormulaEngine
