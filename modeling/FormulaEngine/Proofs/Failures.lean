import FormulaEngine.Formula.Arithmetic
import FormulaEngine.Proofs.Writing

/-!
# What operations fail with

Operations on values fail only where a text is no number; operations on symbols do not fail at all.
-/
namespace FormulaEngine

def FailsOnly {α : Type} (kind : ResolveError → Prop) (x : Outcome α) : Prop :=
  ∀ e, x = .error e → kind e

section Outcomes

variable {α β : Type} {kind : ResolveError → Prop}

theorem failsOnly_ok (a : α) : FailsOnly kind (.ok a : Outcome α) := nofun

theorem failsOnly_error {e : ResolveError} (h : kind e) :
    FailsOnly kind (.error e : Outcome α) := by
  rintro _ ⟨⟩
  exact h

theorem FailsOnly.bind {x : Outcome α} {f : α → Outcome β} (hx : FailsOnly kind x)
    (hf : ∀ a, FailsOnly kind (f a)) : FailsOnly kind (x >>= f) := by
  cases x with
  | ok a => exact hf a
  | error e => exact failsOnly_error (hx e rfl)

theorem FailsOnly.map {x : Outcome α} (hx : FailsOnly kind x) (f : α → β) :
    FailsOnly kind (Except.map f x) := by
  cases x with
  | ok a => exact failsOnly_ok _
  | error e => exact failsOnly_error (hx e rfl)

theorem failsOnly_foldlM {f : β → α → Outcome β} (hf : ∀ b a, FailsOnly kind (f b a)) (b : β)
    (l : List α) : FailsOnly kind (l.foldlM f b) := by
  induction l generalizing b with
  | nil => exact failsOnly_ok b
  | cons a l ih => exact (hf b a).bind fun b => ih b

theorem failsOnly_mapM {f : α → Outcome β} (hf : ∀ a, FailsOnly kind (f a)) (l : List α) :
    FailsOnly kind (l.mapM f) := by
  induction l with
  | nil => exact failsOnly_ok []
  | cons a l ih =>
    rw [List.mapM_cons]
    exact (hf a).bind fun b => ih.bind fun bs => failsOnly_ok _

end Outcomes

def ResolveError.IsNumeric (e : ResolveError) : Prop := ∃ text, e = .notANumber text

abbrev Numeric {α : Type} (x : Outcome α) : Prop := FailsOnly ResolveError.IsNumeric x

theorem numeric_notANumber {α : Type} (text : String) :
    Numeric (.error (.notANumber text) : Outcome α) := failsOnly_error ⟨text, rfl⟩

namespace Scalar

theorem numeric_decimal? (s : Scalar) : Numeric s.decimal? := by
  cases s with
  | text s =>
    simp only [decimal?]
    cases readText? s with
    | none => exact numeric_notANumber s
    | some x => exact failsOnly_ok x
  | _ => exact failsOnly_ok _

theorem numeric_integer? (s : Scalar) : Numeric s.integer? := by
  unfold integer?
  split
  · exact failsOnly_ok _
  · split
    · exact failsOnly_ok _
    · exact (numeric_decimal? _).map _
  · split
    · exact numeric_notANumber _
    · exact (numeric_decimal? _).map _

end Scalar

namespace Formula

theorem numeric_lenient (strict : Bool) {x : Outcome Value} (h : Numeric x) :
    Numeric (lenient strict x) := by
  unfold lenient
  split
  · split
    · exact numeric_notANumber _
    · exact failsOnly_ok _
  · exact h

theorem numeric_decimals {α : Type} (a b : Value) {f : Float → Float → Outcome α}
    (hf : ∀ x y, Numeric (f x y)) : Numeric (a.decimal? >>= fun x => b.decimal? >>= f x) :=
  (Scalar.numeric_decimal? _).bind fun x => (Scalar.numeric_decimal? _).bind (hf x)

theorem numeric_integral (exact : Int64 → Int64 → Option Int64) (decimal : Float → Float → Float)
    (a b : Value) : Numeric (integral exact decimal a b) := by
  unfold integral
  split
  · exact failsOnly_ok _
  · exact numeric_decimals a b fun _ _ => failsOnly_ok _

theorem numeric_divide (a b : Value) : Numeric (divide a b) :=
  numeric_decimals a b fun _ _ => failsOnly_ok _

theorem numeric_compare (test : Ordering → Bool) (a b : Value) : Numeric (compare test a b) :=
  numeric_decimals a b fun _ _ => failsOnly_ok _

theorem numeric_roll (count sides : Value) : Numeric (roll count sides) :=
  (Scalar.numeric_integer? _).bind fun _ => (Scalar.numeric_integer? _).bind fun _ =>
    failsOnly_ok _

theorem numeric_negate (a : Value) : Numeric (negate a) := by
  unfold negate
  split
  · exact failsOnly_ok _
  · exact (Scalar.numeric_decimal? _).bind fun _ => failsOnly_ok _

theorem numeric_absolute (a : Value) : Numeric (absolute a) := by
  unfold absolute
  split
  · exact failsOnly_ok _
  · exact (Scalar.numeric_decimal? _).bind fun _ => failsOnly_ok _

theorem numeric_round (r : Decimal.Rounding) (a : Value) : Numeric (round r a) := by
  unfold round
  split
  · exact failsOnly_ok _
  · refine (Scalar.numeric_decimal? _).bind fun x => ?_
    cases Decimal.round? r x <;> exact failsOnly_ok _

theorem numeric_clamp (value low high : Value) : Numeric (clamp value low high) := by
  refine numeric_decimals value low fun n l => ?_
  split
  · exact failsOnly_ok _
  · exact (Scalar.numeric_decimal? _).bind fun _ => failsOnly_ok _

theorem numeric_extremum (keep : Ordering) (vs : List Value) : Numeric (extremum keep vs) := by
  refine (failsOnly_foldlM (fun best v => ?_) none vs).bind fun _ => failsOnly_ok _
  unfold better
  split
  · exact failsOnly_ok _
  · refine (Scalar.numeric_decimal? _).bind fun x => ?_
    cases best <;> exact failsOnly_ok _

theorem numeric_addNext (strict : Bool) (total v : Value) : Numeric (addNext strict total v) := by
  unfold addNext
  split
  · exact failsOnly_ok _
  · exact numeric_lenient strict (numeric_integral _ _ _ _)
  · exact numeric_lenient strict (numeric_integral _ _ _ _)
  · exact numeric_lenient strict (numeric_integral _ _ _ _)

theorem numeric_sum (strict : Bool) (vs : List Value) : Numeric (sum strict vs) := by
  cases vs with
  | nil => exact failsOnly_ok _
  | cons v vs => exact failsOnly_foldlM (numeric_addNext strict) v vs

theorem numeric_binary (strict : Bool) (op : BinaryOperator) (a b : Value) :
    Numeric (binary strict op a b) := by
  cases op with
  | list => exact failsOnly_ok _
  | dice => exact numeric_roll a b
  | divide => exact numeric_lenient strict (numeric_divide a b)
  | power => exact numeric_lenient strict (numeric_integral _ _ a b)
  | multiply => exact numeric_lenient strict (numeric_integral _ _ a b)
  | add => exact numeric_lenient strict (numeric_integral _ _ a b)
  | subtract => exact numeric_lenient strict (numeric_integral _ _ a b)
  | below => exact numeric_compare _ a b
  | atMost => exact numeric_compare _ a b
  | above => exact numeric_compare _ a b
  | atLeast => exact numeric_compare _ a b
  | equal => exact failsOnly_ok _
  | different => exact failsOnly_ok _
  | both => exact failsOnly_ok _
  | either => exact failsOnly_ok _

theorem numeric_unary (strict : Bool) (op : UnaryOperator) (a : Value) :
    Numeric (unary strict op a) := by
  cases op with
  | negate => exact numeric_lenient strict (numeric_negate a)
  | not => exact failsOnly_ok _

theorem numeric_function1 (f : UnaryFunction) (a : Value) : Numeric (function1 f a) := by
  cases f with
  | abs => exact numeric_absolute a
  | floor => exact numeric_round _ a
  | ceil => exact numeric_round _ a
  | signed => exact (Scalar.numeric_integer? _).bind fun _ => failsOnly_ok _
  | ordinal => exact (Scalar.numeric_integer? _).bind fun _ => failsOnly_ok _
  | minEach => exact (failsOnly_mapM (fun _ => numeric_extremum _ _) _).bind fun _ => failsOnly_ok _
  | maxEach => exact (failsOnly_mapM (fun _ => numeric_extremum _ _) _).bind fun _ => failsOnly_ok _

theorem numeric_function3 (f : TernaryFunction) (a b c : Value) : Numeric (function3 f a b c) := by
  cases f with
  | clamp => exact numeric_clamp a b c
  | choose => exact failsOnly_ok _

theorem numeric_functionN (strict : Bool) (f : VariadicFunction) (vs : List Value) :
    Numeric (functionN strict f vs) := by
  cases f with
  | min => exact numeric_extremum _ _
  | max => exact numeric_extremum _ _
  | sum => exact numeric_sum strict _
  | any => exact failsOnly_ok _
  | all => exact failsOnly_ok _
  | concat => exact failsOnly_ok _

end Formula

/-- An operation fails at most with errors of this kind. -/
def Operation.FailsOnly {V : Type} (kind : ResolveError → Prop) : Operation V → Prop
  | .nullary f => FormulaEngine.FailsOnly kind f
  | .unary f => ∀ a, FormulaEngine.FailsOnly kind (f a)
  | .binary f => ∀ a b, FormulaEngine.FailsOnly kind (f a b)
  | .ternary f => ∀ a b c, FormulaEngine.FailsOnly kind (f a b c)
  | .variadic f => ∀ arguments, FormulaEngine.FailsOnly kind (f arguments)

def Instruction.FailsOnly {V : Type} (kind : ResolveError → Prop) : Instruction V → Prop
  | .operator op => op.operation.FailsOnly kind
  | .function f => f.operation.FailsOnly kind
  | _ => True

open Formula

/-- Code that computes with values fails at most because a text is no number. -/
theorem numeric_instruction (strict : Bool) (c : Code) :
    (c.instruction (arithmetic strict)).FailsOnly ResolveError.IsNumeric := by
  cases c with
  | sign s =>
    cases s with
    | before op => exact numeric_unary strict op
    | between op => exact numeric_binary strict op
  | callee f =>
    cases f with
    | one f => exact numeric_function1 f
    | three f => exact numeric_function3 f
    | many f => exact numeric_functionN strict f
  | _ => trivial

theorem total_instruction (c : Code) :
    (c.instruction Symbol.writing).FailsOnly fun _ => False := by
  cases c with
  | sign s =>
    cases s with
    | before op => exact fun _ => failsOnly_ok _
    | between op => exact fun _ _ => failsOnly_ok _
  | callee f =>
    cases f with
    | one f => exact fun _ => failsOnly_ok _
    | three f => exact fun _ _ _ => failsOnly_ok _
    | many f => exact fun _ => failsOnly_ok _
  | _ => trivial

end FormulaEngine
