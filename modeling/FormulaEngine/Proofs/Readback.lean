import FormulaEngine.Proofs.Flatness
import FormulaEngine.Proofs.Slipping

/-!
# Readback

The tree that the words of a tree are read as, computed from the tree itself: an operator that is
written without brackets after another one, and yields to it, takes all that comes before it as its
left operand.
-/
namespace FormulaEngine

open Formula

/-- After the first operator the second one, unless brackets are put around what it makes, takes
what the first one makes as its left operand. -/
def Formula.BinaryOperator.isTakenBy (op op' : BinaryOperator) : Bool :=
  Sign.yieldsTo (.between op') (.between op)

namespace Tree

def precede : Option (BinaryOperator × Tree) → Tree → Tree
  | none, t => t
  | some (op, x), t => infixed op x t

mutual

/-- What the words of a tree at some place are read as after an operand and an operator, if there
are any before them. -/
def readBack (before : Option (BinaryOperator × Tree)) (place : Symbol.Place) : Tree → Tree
  | literal l => precede before (literal l)
  | reference r => precede before (reference r)
  | prefixed op operand =>
    precede before (prefixed op (operand.readBack none (.operand op.precedence false)))
  | infixed op left right =>
    if op.standsAt place && before.any (·.1.isTakenBy op) then
      right.readBack (some (op, left.readBack before op.leftPlace)) op.rightPlace
    else
      precede before (right.readBack (some (op, left.readBack none op.leftPlace)) op.rightPlace)
  | call f arguments => precede before (call f (readBackAll arguments))
  | annotated subject label => precede before (annotated (subject.readBack none .tight) label)

def readBackAll : List Tree → List Tree
  | [] => []
  | t :: ts => t.readBack none .argument :: readBackAll ts

end

def reread : Tree → Tree := readBack none .formula

theorem readBack_infixed (before : Option (BinaryOperator × Tree)) (place : Symbol.Place)
    (op : BinaryOperator) (left right : Tree) :
    (infixed op left right).readBack before place =
      if op.standsAt place && before.any (·.1.isTakenBy op) then
        right.readBack (some (op, left.readBack before op.leftPlace)) op.rightPlace
      else
        precede before
          (right.readBack (some (op, left.readBack none op.leftPlace)) op.rightPlace) := rfl

theorem readBack_none (t : Tree) (place : Symbol.Place) : t.readBack none place = t.reread := by
  cases t with
  | infixed op left right => simp [reread, readBack_infixed]
  | _ => rfl

theorem readBackAll_eq_map (ts : List Tree) : readBackAll ts = ts.map reread := by
  induction ts with
  | nil => rfl
  | cons t ts ih => exact congrArg₂ List.cons (t.readBack_none .argument) ih

theorem reread_literal (l : Literal) : (literal l).reread = literal l := rfl

theorem reread_prefixed (op : UnaryOperator) (operand : Tree) :
    (prefixed op operand).reread = prefixed op operand.reread :=
  congrArg (prefixed op) (operand.readBack_none _)

theorem reread_infixed (op : BinaryOperator) (left right : Tree) :
    (infixed op left right).reread = right.readBack (some (op, left.reread)) op.rightPlace := by
  rw [← readBack_none _ .formula, readBack_infixed, readBack_none]
  simp [precede]

theorem reread_call (f : Callee) (arguments : List Tree) :
    (call f arguments).reread = call f (arguments.map reread) :=
  congrArg (call f) (readBackAll_eq_map arguments)

theorem reread_annotated (subject : Tree) (label : String) :
    (annotated subject label).reread = annotated subject.reread label :=
  congrArg (annotated · label) (subject.readBack_none _)

/-- The outermost operator takes what comes before the tree at this place. -/
def takesAt (place : Symbol.Place) (op : BinaryOperator) (t : Tree) : Bool :=
  match t.root? with
  | some (.between op') => op'.standsAt place && op.isTakenBy op'
  | _ => false

section

variable {place : Symbol.Place} {op op' : BinaryOperator}

theorem readBack_of_not_takesAt {t : Tree} (h : t.takesAt place op = false) (x : Tree) :
    t.readBack (some (op, x)) place = infixed op x t.reread := by
  cases t with
  | infixed op' left right =>
    have hroot : (op'.standsAt place && op.isTakenBy op') = false := h
    rw [readBack_infixed, reread_infixed, readBack_none]
    simp [hroot, precede]
  | _ => rfl

theorem readBack_of_takes (stands : op'.standsAt place = true) (taken : op.isTakenBy op' = true)
    (x left right : Tree) :
    (infixed op' left right).readBack (some (op, x)) place =
      right.readBack (some (op', left.readBack (some (op, x)) op'.leftPlace)) op'.rightPlace := by
  rw [readBack_infixed]
  simp [stands, taken]

theorem exists_of_takesAt {t : Tree} (h : t.takesAt place op = true) :
    ∃ op' left right, t = infixed op' left right ∧ op'.standsAt place = true ∧
      op.isTakenBy op' = true := by
  cases t with
  | infixed op' left right => exact ⟨op', left, right, rfl, Bool.and_eq_true_iff.1 h⟩
  | _ => cases h

theorem exists_readBack (t : Tree) (op : BinaryOperator) (x : Tree) (place : Symbol.Place) :
    ∃ op' left right, t.readBack (some (op, x)) place = infixed op' left right := by
  match h : t.takesAt place op with
  | false => exact ⟨op, x, t.reread, readBack_of_not_takesAt h x⟩
  | true =>
    match t, exists_of_takesAt h with
    | _, ⟨op', left, right, rfl, stands, taken⟩ =>
      rw [readBack_of_takes stands taken]
      exact exists_readBack right op' _ _

theorem kept_reread (absorbing : Bool) (t : Tree) :
    kept absorbing t.reread = (kept absorbing t).map (List.map reread) := by
  cases t with
  | literal l =>
    cases l with
    | boolean b => by_cases h : b = absorbing <;> simp [reread_literal, kept, h]
    | _ => rfl
  | reference r => rfl
  | prefixed op operand => simp [reread_prefixed, kept]
  | infixed op left right =>
    obtain ⟨op', y, z, h⟩ := exists_readBack right op left.reread op.rightPlace
    rw [reread_infixed, h]
    simp [kept, reread_infixed, h]
  | call f nested =>
    rw [reread_call]
    by_cases h : f.absorbing? = some absorbing <;> simp [kept, h, reread_call]
  | annotated subject label => simp [reread_annotated, kept]

end

section

variable {ops : BinaryOperator → Prop} {calls : Callee → List Tree → Prop}

theorem everywhere_precede {before : Option (BinaryOperator × Tree)}
    (hbefore : ∀ b ∈ before, ops b.1 ∧ b.2.Everywhere ops calls) {t : Tree}
    (h : t.Everywhere ops calls) : (precede before t).Everywhere ops calls := by
  cases before with
  | none => exact h
  | some b => exact ⟨(hbefore b rfl).1, (hbefore b rfl).2, h⟩

mutual

theorem everywhere_readBack (same : ∀ f ts, calls f ts → calls f (ts.map reread)) (t : Tree)
    (h : t.Everywhere ops calls) {before : Option (BinaryOperator × Tree)}
    (hbefore : ∀ b ∈ before, ops b.1 ∧ b.2.Everywhere ops calls) (place : Symbol.Place) :
    (t.readBack before place).Everywhere ops calls := by
  cases t with
  | literal l => exact everywhere_precede hbefore trivial
  | reference r => exact everywhere_precede hbefore trivial
  | prefixed op operand =>
    exact everywhere_precede hbefore (everywhere_readBack same operand h (by simp) _)
  | infixed op left right =>
    obtain ⟨hop, hleft, hright⟩ := h
    rw [readBack_infixed]
    split
    · refine everywhere_readBack same right hright ?_ _
      rintro _ ⟨⟩
      exact ⟨hop, everywhere_readBack same left hleft hbefore _⟩
    · refine everywhere_precede hbefore (everywhere_readBack same right hright ?_ _)
      rintro _ ⟨⟩
      exact ⟨hop, everywhere_readBack same left hleft (by simp) _⟩
  | call f arguments =>
    refine everywhere_precede hbefore ⟨?_, everywhereAll_readBackAll same arguments h.2⟩
    rw [readBackAll_eq_map]
    exact same f arguments h.1
  | annotated subject label =>
    exact everywhere_precede hbefore (everywhere_readBack same subject h (by simp) _)

theorem everywhereAll_readBackAll (same : ∀ f ts, calls f ts → calls f (ts.map reread))
    (ts : List Tree) (h : EverywhereAll ops calls ts) :
    EverywhereAll ops calls (readBackAll ts) := by
  cases ts with
  | nil => trivial
  | cons t ts =>
    exact ⟨everywhere_readBack same t h.1 (by simp) _, everywhereAll_readBackAll same ts h.2⟩

end

end

theorem flat_reread {t : Tree} (h : t.Flat) : t.reread.Flat := by
  refine everywhere_readBack (fun f ts hcall absorbing hf => ?_) t h (by simp) _
  obtain ⟨htwo, hkept⟩ := hcall absorbing hf
  refine ⟨by rwa [List.length_map], fun u hu => ?_⟩
  obtain ⟨t, ht, rfl⟩ := List.mem_map.1 hu
  rw [kept_reread, hkept t ht]
  rfl

theorem saturated_reread {t : Tree} (h : t.Saturated) : t.reread.Saturated :=
  everywhere_readBack (fun f ts htakes => by rwa [List.length_map]) t h (by simp) _

/-- What stands at the place comes right after the operator: as its right operand, or at the left
end of that, where brackets are left out. -/
inductive Follows : BinaryOperator → Symbol.Place → Prop where
  | right (op : BinaryOperator) : Follows op op.rightPlace
  | regrouped {op op' : BinaryOperator} (h : op.regroups op' = true) : Follows op op'.leftPlace
  | compared {op' : BinaryOperator} (h : op'.isComparison = true) :
    Follows .multiply op'.leftPlace

namespace Follows

variable {place : Symbol.Place} {op op' : BinaryOperator}

/-- Only what is grouped to the left takes what the operator makes, and a comparison that a
multiplication slips past. -/
theorem isTakenBy_iff (h : Follows op place) (stands : op'.standsAt place = true) :
    op.isTakenBy op' = true ↔
      op.regroups op' = true ∨ op = .multiply ∧ op'.isComparison = true := by
  revert stands
  cases h with
  | right => cases op <;> cases op' <;> decide
  | @regrouped _ root h =>
    cases op <;> cases root <;> first | contradiction | (cases op' <;> decide)
  | @compared root h => cases root <;> first | contradiction | (cases op' <;> decide)

theorem left (h : Follows op place) (stands : op'.standsAt place = true)
    (taken : op.isTakenBy op' = true) : Follows op op'.leftPlace := by
  rcases (h.isTakenBy_iff stands).1 taken with hregroups | ⟨rfl, hcompared⟩
  · exact .regrouped hregroups
  · exact .compared hcompared

theorem precedence_eq (h : Follows op place) (stands : op'.standsAt place = true)
    (taken : op.isTakenBy op' = true) : op'.precedence = op.precedence := by
  rcases (h.isTakenBy_iff stands).1 taken with hregroups | ⟨rfl, hcompared⟩
  · cases op <;> cases op' <;> first | contradiction | rfl
  · cases op' <;> first | contradiction | rfl

theorem precedence_lt (h : Follows op place) {t : Tree} (stands : t.standsAt place = true)
    (apart : t.takesAt place op = false) :
    op.precedence < t.level ∨ op = .power ∧ op.precedence = t.level := by
  unfold level Tree.standsAt takesAt at *
  revert stands apart
  cases h with
  | right =>
    rcases t.root? with _ | ⟨root | root⟩
    · cases op <;> decide
    · cases op <;> cases root <;> decide
    · cases op <;> cases root <;> decide
  | @regrouped _ op' h =>
    rcases t.root? with _ | ⟨root | root⟩
    · cases op <;> cases op' <;> first | contradiction | decide
    · cases op <;> cases op' <;> first | contradiction | (cases root <;> decide)
    · cases op <;> cases op' <;> first | contradiction | (cases root <;> decide)
  | @compared op' h =>
    rcases t.root? with _ | ⟨root | root⟩
    · cases op' <;> first | contradiction | decide
    · cases op' <;> first | contradiction | (cases root <;> decide)
    · cases op' <;> first | contradiction | (cases root <;> decide)

end Follows

section

variable {V : Type} [Operand V] (i : Interpretation V)

/-- The code of the tree that is read back is what the words are read as, as a whole and after an
operand and an operator. -/
structure Recovers (t : Tree) : Prop where
  whole (place : Symbol.Place) : (t.expression i place).postorder = instructions i t.reread.code
  after {op : BinaryOperator} {place : Symbol.Place} (h : Follows op place) (x : Tree) :
    instructions i x.code ++ (t.expression i place).postorderWith (op.infixSign i) =
      instructions i (t.readBack (some (op, x)) place).code

variable {i}

omit [Operand V] in
theorem yieldsTo_infixSign {op op' : BinaryOperator} :
    (op'.infixSign i).op.yieldsTo (op.infixSign i).op = op.isTakenBy op' := by
  rw [op_infixSign, op_infixSign]
  rfl

theorem holds_of_not_takesAt {t : Tree} {op : BinaryOperator} {place : Symbol.Place}
    (h : Follows op place) (apart : t.takesAt place op = false) :
    ∀ top ∈ (t.expression i place).leftSpine, top.yieldsTo (op.infixSign i).op = false := by
  intro top htop
  obtain ⟨hstands, b, rfl, hlevel⟩ := of_mem_leftSpine i htop
  rw [op_infixSign]
  rcases h.precedence_lt hstands apart with hlt | ⟨rfl, heq⟩
  · exact Operator.yieldsTo_eq_false (Nat.lt_of_lt_of_le hlt hlevel)
  · rw [← heq] at hlevel
    cases b <;> first | rfl | exact absurd hlevel (by decide)

theorem recovers_of_operands {t : Tree}
    (whole : ∀ place, (t.expression i place).postorder = instructions i t.reread.code)
    (operands : ∀ op left right, t = infixed op left right →
      left.Recovers i ∧ right.Recovers i) : t.Recovers i where
  whole := whole
  after {op place} h x := by
    cases htakes : t.takesAt place op with
    | false =>
      rw [readBack_of_not_takesAt htakes, Expression.postorderWith_of_holds _
        (holds_of_not_takesAt h htakes), whole, op_infixSign, code, instructions, instructions,
        instructions, List.map_append, List.map_append, List.append_assoc]
      rfl
    | true =>
      obtain ⟨root, left, right, rfl, stands, taken⟩ := exists_of_takesAt htakes
      obtain ⟨hleft, hright⟩ := operands root left right rfl
      have hyields : (root.infixSign i).op.yieldsTo (op.infixSign i).op = true := by
        rwa [yieldsTo_infixSign]
      have hsame : (root.infixSign i).op.precedence = (op.infixSign i).op.precedence := by
        rw [op_infixSign, op_infixSign]
        exact h.precedence_eq stands taken
      rw [expression, stands, readBack_of_takes stands taken, ← hright.after (.right root),
        ← hleft.after (h.left stands taken), List.append_assoc]
      exact congrArg _ (Expression.postorderWith_join _ _ hyields hsame _)

variable (i)

mutual

/-- The words of a tree are read as the tree that is read back. -/
theorem recovers (t : Tree) : t.Recovers i := by
  cases t with
  | literal l => exact recovers_of_operands (fun _ => rfl) nofun
  | reference r => exact recovers_of_operands (fun _ => rfl) nofun
  | prefixed op operand =>
    refine recovers_of_operands (fun place => ?_) nofun
    rw [expression, Expression.postorder_bracketUnless, Expression.postorder, op_prefixSign,
      operand.recovers.whole, reread_prefixed, code, instructions, instructions, List.map_append]
    rfl
  | infixed op left right =>
    have hleft := left.recovers
    have hright := right.recovers
    refine recovers_of_operands (fun place => ?_) ?_
    · rw [expression, Expression.postorder_bracketUnless, Expression.postorder_join, hleft.whole,
        hright.after (.right op), reread_infixed]
    · rintro _ _ _ ⟨⟩
      exact ⟨hleft, hright⟩
  | call f arguments =>
    refine recovers_of_operands (fun place => ?_) nofun
    rw [expression, Expression.postorder, Primary.postorder, callCode_symbol, length_expressions,
      argumentsPostorder_expressions arguments, reread_call, code, List.length_map]
    simp only [instructions, List.map_append]
  | annotated subject label =>
    refine recovers_of_operands (fun place => ?_) nofun
    rw [expression, Expression.postorder, Primary.postorder, Expression.postorder_toPrimary,
      subject.recovers.whole, reread_annotated, code, instructions, instructions, List.map_append]
    rfl

theorem argumentsPostorder_expressions (ts : List Tree) :
    argumentsPostorder (expressions i ts) = instructions i (codeAll (ts.map reread)) := by
  cases ts with
  | nil => rfl
  | cons t ts =>
    rw [expressions, argumentsPostorder, t.recovers.whole, argumentsPostorder_expressions ts,
      List.map_cons, codeAll, instructions, instructions, instructions, List.map_append]

end

end

-- `5*((2<3)*4)` is written `5*2<3*4`
example : (infixed .multiply (literal (.integer "5")) (infixed .multiply
    (infixed .below (literal (.integer "2")) (literal (.integer "3")))
    (literal (.integer "4")))).reread =
  infixed .multiply (infixed .below (infixed .multiply (literal (.integer "5"))
    (literal (.integer "2"))) (literal (.integer "3"))) (literal (.integer "4")) := rfl

end Tree

end FormulaEngine
