import FormulaEngine.Proofs.Literals

/-!
# Integer trees

Trees of integers with sums, differences, products and negations. Such a tree comes to its exact
value as long as no result on the way leaves the range, and grouping it to the left leaves the exact
value as it is.
-/
namespace FormulaEngine

open Formula

/-- The operation on integers of any size. -/
def Formula.BinaryOperator.onIntegers? : BinaryOperator → Option (Int → Int → Int)
  | add => some (· + ·)
  | subtract => some (· - ·)
  | multiply => some (· * ·)
  | _ => none

theorem Formula.BinaryOperator.eq_of_onIntegers? {op : BinaryOperator} {f : Int → Int → Int}
    (computes : op.onIntegers? = some f) : op = add ∨ op = subtract ∨ op = multiply := by
  cases op with
  | add => exact .inl rfl
  | subtract => exact .inr (.inl rfl)
  | multiply => exact .inr (.inr rfl)
  | _ => cases computes

/-- Digits of an integer in range. -/
structure IsNumeral (text : String) : Prop where
  isRun : IsRun Fragment.digitChars text.toList
  le_greatest : Integer.ofDigits text.toList ≤ Integer.greatest

/-- A key that can be written between braces, and no pattern. -/
structure IsPlainKey (key : String) : Prop where
  isRun : IsRun Fragment.bracedKeyChars key.toList
  noStar : '*' ∉ key.toList

def Reference.braced (key : String) : Reference := ⟨"@\x7b", key, "\x7d"⟩

section Operations

variable (strict : Bool) {n m : Int64}

theorem exists_negate (fits : (Integer.ofInt? (-n.toInt)).isSome = true) :
    ∃ k : Int64, k.toInt = -n.toInt ∧ unary strict .negate (.integer n) = .ok (.integer k) := by
  obtain ⟨k, hk⟩ := Option.isSome_iff_exists.1 fits
  refine ⟨k, Integer.toInt_of_ofInt? hk, ?_⟩
  have hnegate : Integer.negate? n = some k := hk
  simp [unary, negate, Value.plainInteger?, Value.latest, hnegate, lenient]

theorem exists_binary {op : BinaryOperator} {f : Int → Int → Int}
    (computes : op.onIntegers? = some f)
    (fits : (Integer.ofInt? (f n.toInt m.toInt)).isSome = true) :
    ∃ k : Int64, k.toInt = f n.toInt m.toInt ∧
      binary strict op (.integer n) (.integer m) = .ok (.integer k) := by
  obtain ⟨k, hk⟩ := Option.isSome_iff_exists.1 fits
  refine ⟨k, Integer.toInt_of_ofInt? hk, ?_⟩
  have hintegral (checked : Int64 → Int64 → Option Int64) (decimal : Float → Float → Float)
      (h : checked n m = some k) :
      lenient strict (integral checked decimal (.integer n) (.integer m)) = .ok (.integer k) := by
    simp [integral, Value.plainInteger?, Value.latest, h, lenient]
  cases op with
  | add =>
    cases computes
    exact hintegral Integer.add? _ hk
  | subtract =>
    cases computes
    exact hintegral Integer.subtract? _ hk
  | multiply =>
    cases computes
    exact hintegral Integer.multiply? _ hk
  | _ => cases computes

theorem IsNumeral.exists_value {text : String} (h : IsNumeral text) :
    ∃ k : Int64, k.toInt = Integer.ofDigits text.toList ∧
      Value.ofIntegerText text = .integer k := by
  obtain ⟨⟨hne, _, hdigits⟩, hle⟩ := h
  have hdigit : Fragment.digitChars.all Char.isDigit = true := by decide
  have hall : text.toList.all Char.isDigit = true :=
    List.all_eq_true.2 fun c hc => List.all_eq_true.1 hdigit c (hdigits c hc)
  have hsign : Integer.splitSign text.toList = (false, text.toList) := by
    obtain ⟨c, cs, htext⟩ := List.exists_cons_of_ne_nil hne
    rw [htext]
    exact Integer.splitSign_of_isDigit
      (List.all_eq_true.1 hdigit c (hdigits c (by simp [htext]))) cs
  have hleast : Integer.least ≤ Integer.ofDigits text.toList := by
    simp only [Integer.least]
    omega
  have hread : Integer.read? text.toList =
      Integer.ofInt? (Integer.ofDigits text.toList) := by
    simp [Integer.read?, hsign, hall, hne]
  have hint := Integer.ofInt?_eq_some.2 ⟨hleast, hle, rfl⟩
  refine ⟨_, Integer.toInt_of_ofInt? hint, ?_⟩
  rw [Value.ofIntegerText, hread, hint]

end Operations

namespace Tree

/-- The tree is made of integers, of references to some of the keys, and of their sums, differences,
products and negations. -/
inductive IsArithmetic (keys : String → Prop) : Tree → Prop
  | integer {text : String} (numeral : IsNumeral text) :
    IsArithmetic keys (.literal (.integer text))
  | reference {key : String} (plain : IsPlainKey key) (bound : keys key) :
    IsArithmetic keys (.reference (.braced key))
  | negated {t : Tree} (operand : IsArithmetic keys t) : IsArithmetic keys (.prefixed .negate t)
  | joined {op : BinaryOperator} {f : Int → Int → Int} {t u : Tree} (computes : op.onIntegers? = some f)
    (left : IsArithmetic keys t) (right : IsArithmetic keys u) :
    IsArithmetic keys (.infixed op t u)

variable (env : String → Int64)

/-- The value of the tree among the integers of any size. -/
def exactValue : Tree → Int
  | literal (.integer text) => Integer.ofDigits text.toList
  | reference r => (env r.key).toInt
  | prefixed .negate t => -t.exactValue
  | infixed op t u =>
    match op.onIntegers? with
    | some f => f t.exactValue u.exactValue
    | none => 0
  | _ => 0

def fits : Tree → Bool
  | prefixed op t => t.fits && (Integer.ofInt? ((prefixed op t).exactValue env)).isSome
  | infixed op t u => t.fits && u.fits && (Integer.ofInt? ((infixed op t u).exactValue env)).isSome
  | _ => true

variable {env} {keys : String → Prop} {op op' : BinaryOperator} {f g : Int → Int → Int}

theorem exactValue_infixed (computes : op.onIntegers? = some f) (t u : Tree) :
    (infixed op t u).exactValue env = f (t.exactValue env) (u.exactValue env) := by
  rw [exactValue, computes]

/-- What is grouped to the left can be grouped to the right. -/
theorem onIntegers_assoc (regroups : op.regroups op' = true) (computes : op.onIntegers? = some f)
    (computes' : op'.onIntegers? = some g) (a b c : Int) : g (f a b) c = f a (g b c) := by
  cases op <;> cases op' <;> first | contradiction | skip
  · cases computes
    cases computes'
    exact Int.mul_assoc a b c
  · cases computes
    cases computes'
    exact Int.add_assoc a b c
  · cases computes
    cases computes'
    exact Int.add_sub_assoc a b c

namespace IsArithmetic

variable {t x : Tree}

theorem regroup (ht : t.IsArithmetic keys) (computes : op.onIntegers? = some f)
    (hx : x.IsArithmetic keys) : (regroup op x t).IsArithmetic keys ∧
      ∀ env, (Tree.regroup op x t).exactValue env = f (x.exactValue env) (t.exactValue env) := by
  induction ht with
  | integer numeral =>
    exact ⟨.joined computes hx (.integer numeral), fun _ => exactValue_infixed computes _ _⟩
  | reference plain bound =>
    exact ⟨.joined computes hx (.reference plain bound), fun _ => exactValue_infixed computes _ _⟩
  | negated operand =>
    exact ⟨.joined computes hx (.negated operand), fun _ => exactValue_infixed computes _ _⟩
  | @joined op' g y z computes' left right ih _ =>
    rw [Tree.regroup]
    split
    · rename_i regroups
      obtain ⟨harithmetic, hexact⟩ := ih
      refine ⟨.joined computes' harithmetic right, fun env => ?_⟩
      rw [exactValue_infixed computes', exactValue_infixed computes', hexact,
        onIntegers_assoc regroups computes computes']
    · exact ⟨.joined computes hx (.joined computes' left right),
        fun _ => exactValue_infixed computes _ _⟩

theorem regrouped (h : t.IsArithmetic keys) :
    t.regrouped.IsArithmetic keys ∧ ∀ env, t.regrouped.exactValue env = t.exactValue env := by
  induction h with
  | integer numeral => exact ⟨.integer numeral, fun _ => rfl⟩
  | reference plain bound => exact ⟨.reference plain bound, fun _ => rfl⟩
  | negated _ ih => exact ⟨.negated ih.1, fun env => congrArg Neg.neg (ih.2 env)⟩
  | @joined op f y z computes _ _ ih ih' =>
    obtain ⟨harithmetic, hexact⟩ := ih'.1.regroup computes ih.1
    refine ⟨harithmetic, fun env => ?_⟩
    rw [exactValue_infixed computes, ← ih.2, ← ih'.2]
    exact hexact env

theorem saturated (h : t.IsArithmetic keys) : t.Saturated := by
  induction h with
  | integer numeral => trivial
  | reference plain bound => trivial
  | negated _ ih => exact ih
  | joined _ _ _ ih ih' => exact ⟨trivial, ih, ih'⟩

theorem flat (h : t.IsArithmetic keys) : t.Flat := by
  induction h with
  | integer numeral => trivial
  | reference plain bound => trivial
  | negated _ ih => exact ih
  | @joined op _ _ _ computes _ _ ih ih' =>
    refine ⟨?_, ih, ih'⟩
    rcases BinaryOperator.eq_of_onIntegers? computes with rfl | rfl | rfl <;> rfl

theorem beginsCompared_eq_false (h : t.IsArithmetic keys) : t.beginsCompared = false := by
  induction h with
  | @joined op _ _ _ computes _ _ ih _ =>
    have hop : op.isComparison = false := by
      rcases BinaryOperator.eq_of_onIntegers? computes with rfl | rfl | rfl <;> rfl
    rw [beginsCompared, hop, ih, Bool.and_false, Bool.or_false]
  | _ => rfl

theorem slips_eq_false (h : t.IsArithmetic keys) : t.slips = false := by
  induction h with
  | joined _ _ right ih ih' =>
    rw [slips, ih, ih', right.beginsCompared_eq_false, Bool.and_false, Bool.or_self, Bool.or_self]
  | negated _ ih => exact ih
  | _ => rfl

theorem of_reference_mem_code (h : t.IsArithmetic keys) {r : Reference}
    (hr : .reference r ∈ t.code) : keys r.key ∧ IsPlainKey r.key := by
  induction h with
  | integer numeral => cases List.mem_singleton.1 hr
  | reference plain bound =>
    cases List.mem_singleton.1 hr
    exact ⟨bound, plain⟩
  | negated _ ih =>
    rcases List.mem_append.1 hr with hr | hr
    · exact ih hr
    · cases List.mem_singleton.1 hr
  | joined _ _ _ ih ih' =>
    rcases List.mem_append.1 hr with hr | hr
    · rcases List.mem_append.1 hr with hr | hr
      · exact ih hr
      · exact ih' hr
    · cases List.mem_singleton.1 hr

/-- A tree comes to its exact value if no result on the way is out of range. -/
theorem exists_value (h : t.IsArithmetic keys) (fits : t.fits env = true) (strict : Bool) :
    ∃ n : Int64, n.toInt = t.exactValue env ∧ (t.unbracketed (arithmetic strict)).value
      (fun r => .ok (.integer (env r.key))) = .ok (.integer n) := by
  induction h with
  | integer numeral =>
    obtain ⟨n, hn, hvalue⟩ := numeral.exists_value
    exact ⟨n, hn, congrArg Except.ok hvalue⟩
  | @reference key plain bound => exact ⟨env key, rfl, rfl⟩
  | negated _ ih =>
    obtain ⟨hoperand, hresult⟩ := Bool.and_eq_true_iff.1 fits
    obtain ⟨n, hn, hvalue⟩ := ih hoperand
    rw [exactValue, ← hn] at hresult
    obtain ⟨k, hk, hnegate⟩ := exists_negate strict hresult
    refine ⟨k, by rw [hk, hn, exactValue], ?_⟩
    rw [unbracketed, Expression.value, hvalue, op_prefixSign]
    exact hnegate
  | joined computes _ _ ih ih' =>
    obtain ⟨hoperands, hresult⟩ := Bool.and_eq_true_iff.1 fits
    obtain ⟨hleft, hright⟩ := Bool.and_eq_true_iff.1 hoperands
    obtain ⟨n, hn, hvalue⟩ := ih hleft
    obtain ⟨m, hm, hvalue'⟩ := ih' hright
    rw [exactValue_infixed computes, ← hn, ← hm] at hresult
    obtain ⟨k, hk, hbinary⟩ := exists_binary strict computes hresult
    refine ⟨k, by rw [hk, hn, hm, exactValue_infixed computes], ?_⟩
    rw [unbracketed, Expression.value, hvalue, hvalue', op_infixSign]
    exact hbinary

end IsArithmetic

end Tree

end FormulaEngine
