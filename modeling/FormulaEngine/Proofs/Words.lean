import FormulaEngine.Formula.Vocabulary

/-!
# Words

Tokens and instructions of formulas as they are written, apart from what the words of the language
compute. An interpretation gives each of them a meaning, and the order of instructions is the same
under all interpretations.
-/
namespace FormulaEngine

open Formula

inductive Literal where
  | integer (text : String)
  | decimal (text : String)
  | quoted (mark text : String)
  | boolean (b : Bool)
  | null
  deriving DecidableEq

inductive Sign where
  | before (op : UnaryOperator)
  | between (op : BinaryOperator)
  deriving DecidableEq

inductive Callee where
  | one (f : UnaryFunction)
  | three (f : TernaryFunction)
  | many (f : VariadicFunction)
  deriving DecidableEq

inductive Word where
  | literal (l : Literal)
  | reference (r : Reference)
  | sign (s : Sign)
  /-- The sign of an operator before and of one between operands. -/
  | minus
  | callee (f : Callee)
  | comment (label : String)
  | opening
  | closing
  | separator
  deriving DecidableEq

inductive Code where
  | literal (l : Literal)
  | reference (r : Reference)
  | sign (s : Sign)
  | callee (f : Callee)
  | arity (n : Nat)
  | comment (label : String)
  deriving DecidableEq

/-- The word that the text of an instruction is read from, if it has one of its own. -/
def Code.source? : Code → Option Word
  | literal l => some (.literal l)
  | reference r => some (.reference r)
  | comment label => some (.comment label)
  | _ => none

def Literal.text : Literal → String
  | integer text => text
  | decimal text => text
  | quoted mark text => mark ++ text ++ mark
  | boolean b => if b then "true" else "false"
  | null => "null"

def Sign.symbol : Sign → String
  | before op => op.symbol
  | between op => op.symbol

def Callee.name : Callee → String
  | one f => f.name
  | three f => f.name
  | many f => f.name

def Word.text : Word → String
  | literal l => l.text
  | reference r => r.opening ++ r.key ++ r.closing
  | sign s => s.symbol
  | minus => BinaryOperator.symbol .subtract
  | callee f => f.name
  | comment label => "[" ++ label ++ "]"
  | opening => "("
  | closing => ")"
  | separator => ","

section Meanings

variable {V : Type}

def Sign.operator (i : Interpretation V) : Sign → Operator V
  | before op => i.unaryOperator op
  | between op => i.binaryOperator op

def Callee.symbol (i : Interpretation V) : Callee → FunctionSymbol V
  | one f => ⟨f.name, .unary (i.function1 f)⟩
  | three f => ⟨f.name, .ternary (i.function3 f)⟩
  | many f => ⟨f.name, .variadic (i.functionN f)⟩

variable [Operand V]

def Literal.value (i : Interpretation V) : Literal → V
  | integer text => Operand.ofInteger text
  | decimal text => Operand.ofDecimal text
  | quoted mark text => Operand.quoted (Operand.ofText text) mark mark
  | boolean b => i.boolean b
  | null => i.null

def Word.token (i : Interpretation V) : Word → Token V
  | literal l => .term (l.value i)
  | reference r => .reference r
  | sign s => .operator (s.operator i)
  | minus => .twoWay (i.unaryOperator .negate) (i.binaryOperator .subtract)
  | callee f => .function (f.symbol i)
  | comment label => .comment label
  | opening => .opening
  | closing => .closing
  | separator => .separator

def Code.instruction (i : Interpretation V) : Code → Instruction V
  | literal l => .term (l.value i)
  | reference r => .reference r
  | sign s => .operator (s.operator i)
  | callee f => .function (f.symbol i)
  | arity n => .arity n
  | comment label => .comment label

def instructions (i : Interpretation V) (code : List Code) : List (Instruction V) :=
  code.map (Code.instruction i)

theorem instructions_append (i : Interpretation V) (code more : List Code) :
    instructions i (code ++ more) = instructions i code ++ instructions i more :=
  List.map_append

end Meanings

namespace Sign

def isPrefix : Sign → Bool
  | before _ => true
  | between _ => false

def precedence : Sign → Nat
  | before op => op.precedence
  | between op => op.precedence

def associativity : Sign → Associativity
  | before _ => .left
  | between op => op.associativity

def yieldsTo (s top : Sign) : Bool :=
  s.precedence < top.precedence || (s.associativity == .left && s.precedence == top.precedence)

variable {V : Type} (i : Interpretation V)

@[simp] theorem isPrefix_operator (s : Sign) : (s.operator i).isPrefix = s.isPrefix := by
  cases s <;> rfl

@[simp] theorem yieldsTo_operator (s top : Sign) :
    (s.operator i).yieldsTo (top.operator i) = s.yieldsTo top := by
  cases s <;> cases top <;> rfl

end Sign

def Callee.isVariadic : Callee → Bool
  | .many _ => true
  | _ => false

@[simp] theorem Callee.isVariadic_symbol {V : Type} (i : Interpretation V) (f : Callee) :
    (f.symbol i).operation.isVariadic = f.isVariadic := by
  cases f <;> rfl

/-- What waits for its operands, and the brackets that are open, without their meanings. -/
inductive Waiting where
  | sign (s : Sign)
  | callee (f : Callee)
  | call (f : Callee) (arguments : Nat)
  | group

def Waiting.pending {V : Type} (i : Interpretation V) : Waiting → Pending V
  | sign s => .operator (s.operator i)
  | callee f => .function (f.symbol i)
  | call f n => .call (f.symbol i) n
  | group => .group

/-- The code and the waiting words that something comes to under every interpretation. -/
def Uniform (emission : ∀ (V : Type) [Operand V], Interpretation V → Emission V)
    (code : List Code) (waiting : List Waiting) : Prop :=
  ∀ (V : Type) [Operand V] (i : Interpretation V),
    emission V i = (code.map (Code.instruction i), waiting.map (Waiting.pending i))

def Plain (code : List Code) : Prop := ∀ c ∈ code, c.source? = none

theorem Plain.cons {c : Code} {code : List Code} (hc : c.source? = none) (h : Plain code) :
    Plain (c :: code) := by
  intro d hd
  rcases List.mem_cons.1 hd with rfl | hd
  · exact hc
  · exact h d hd

theorem Plain.append {first second : List Code} (h : Plain first) (h' : Plain second) :
    Plain (first ++ second) := by
  intro c hc
  rcases List.mem_append.1 hc with hc | hc
  · exact h c hc
  · exact h' c hc

theorem exists_completeBefore (s : Sign) (waiting : List Waiting) :
    ∃ code rest, Plain code ∧
      Uniform (fun _ _ i => completeBefore (s.operator i) (waiting.map (Waiting.pending i)))
        code rest := by
  induction waiting with
  | nil => exact ⟨[], [], nofun, fun _ _ _ => rfl⟩
  | cons w waiting ih =>
    cases w with
    | sign top =>
      by_cases h : s.yieldsTo top
      · obtain ⟨code, rest, hplain, hcode⟩ := ih
        refine ⟨.sign top :: code, rest, hplain.cons rfl, fun V _ i => ?_⟩
        simp only [List.map_cons, Waiting.pending, completeBefore, Sign.yieldsTo_operator, h,
          hcode V i, if_true, Code.instruction]
      · refine ⟨[], .sign top :: waiting, nofun, fun V _ i => ?_⟩
        simp only [List.map_cons, Waiting.pending, completeBefore, Sign.yieldsTo_operator, h,
          Bool.false_eq_true, if_false, List.map_nil]
    | callee f => exact ⟨[], .callee f :: waiting, nofun, fun _ _ _ => rfl⟩
    | call f n => exact ⟨[], .call f n :: waiting, nofun, fun _ _ _ => rfl⟩
    | group => exact ⟨[], .group :: waiting, nofun, fun _ _ _ => rfl⟩

theorem exists_completeInside (waiting : List Waiting) :
    ∃ code rest, Plain code ∧
      Uniform (fun _ _ i => completeInside (waiting.map (Waiting.pending i))) code rest := by
  induction waiting with
  | nil => exact ⟨[], [], nofun, fun _ _ _ => rfl⟩
  | cons w waiting ih =>
    obtain ⟨code, rest, hplain, hcode⟩ := ih
    cases w with
    | sign s =>
      refine ⟨.sign s :: code, rest, hplain.cons rfl, fun V _ i => ?_⟩
      simp only [List.map_cons, Waiting.pending, completeInside, hcode V i, Code.instruction]
    | callee f =>
      refine ⟨.callee f :: code, rest, hplain.cons rfl, fun V _ i => ?_⟩
      simp only [List.map_cons, Waiting.pending, completeInside, hcode V i, Code.instruction]
    | call f n => exact ⟨[], .call f n :: waiting, nofun, fun _ _ _ => rfl⟩
    | group => exact ⟨[], .group :: waiting, nofun, fun _ _ _ => rfl⟩

theorem exists_completeAll (waiting : List Waiting) :
    ∃ code, Plain code ∧ ∀ (V : Type) [Operand V] (i : Interpretation V),
      completeAll (waiting.map (Waiting.pending i)) = code.map (Code.instruction i) := by
  induction waiting with
  | nil => exact ⟨[], nofun, fun _ _ _ => rfl⟩
  | cons w waiting ih =>
    obtain ⟨code, hplain, hcode⟩ := ih
    cases w with
    | sign s =>
      refine ⟨.sign s :: code, hplain.cons rfl, fun V _ i => ?_⟩
      simp only [List.map_cons, Waiting.pending, completeAll, hcode V i, Code.instruction]
    | callee f =>
      refine ⟨.callee f :: code, hplain.cons rfl, fun V _ i => ?_⟩
      simp only [List.map_cons, Waiting.pending, completeAll, hcode V i, Code.instruction]
    | call f n => exact ⟨code, hplain, hcode⟩
    | group => exact ⟨code, hplain, hcode⟩

def insideCallee : List Waiting → Bool
  | .call _ _ :: _ => true
  | .sign _ :: rest => insideCallee rest
  | .callee _ :: rest => insideCallee rest
  | .group :: _ => false
  | [] => false

theorem insideCall_pending {V : Type} (i : Interpretation V) (waiting : List Waiting) :
    insideCall (waiting.map (Waiting.pending i)) = insideCallee waiting := by
  induction waiting with
  | nil => rfl
  | cons w waiting ih =>
    cases w with
    | sign s => exact ih
    | callee f => exact ih
    | call f n => rfl
    | group => rfl

theorem exists_pendOperator (s : Sign) (waiting : List Waiting) :
    ∃ code rest, Plain code ∧
      Uniform (fun _ _ i => pendOperator (s.operator i) (waiting.map (Waiting.pending i)))
        code rest := by
  by_cases h : s.isPrefix
  · refine ⟨[], .sign s :: waiting, nofun, fun V _ i => ?_⟩
    simp only [pendOperator, Sign.isPrefix_operator, h, if_true, List.map_cons, List.map_nil,
      Waiting.pending]
  · obtain ⟨code, rest, hplain, hcode⟩ := exists_completeBefore s waiting
    refine ⟨code, .sign s :: rest, hplain, fun V _ i => ?_⟩
    simp only [pendOperator, Sign.isPrefix_operator, h, Bool.false_eq_true, if_false, hcode V i,
      List.map_cons, Waiting.pending]

theorem exists_closeBracket (previous : Option Word) (waiting : List Waiting) :
    ∃ code rest, Plain code ∧
      Uniform (fun _ _ i => closeBracket (previous.map (Word.token i))
        (waiting.map (Waiting.pending i))) code rest := by
  obtain ⟨code, rest, hplain, hcode⟩ := exists_completeInside waiting
  match rest with
  | .call f n :: rest =>
    refine ⟨code ++ (if f.isVariadic then [.arity (if previous = some .opening then 0 else n)]
      else []) ++ [.callee f], rest, ?_, fun V _ i => ?_⟩
    · refine (hplain.append ?_).append (Plain.cons rfl nofun)
      split
      · exact Plain.cons rfl nofun
      · nofun
    · simp only [closeBracket, hcode V i, List.map_cons, Waiting.pending,
        Callee.isVariadic_symbol]
      cases previous with
      | none => cases f.isVariadic <;> simp [Code.instruction]
      | some w => cases w <;> cases f.isVariadic <;> simp [Code.instruction, Word.token]
  | .group :: rest =>
    refine ⟨code, rest, hplain, fun V _ i => ?_⟩
    simp only [closeBracket, hcode V i, List.map_cons, Waiting.pending]
  | .sign s :: rest =>
    refine ⟨code, .sign s :: rest, hplain, fun V _ i => ?_⟩
    simp only [closeBracket, hcode V i, List.map_cons, Waiting.pending]
  | .callee f :: rest =>
    refine ⟨code, .callee f :: rest, hplain, fun V _ i => ?_⟩
    simp only [closeBracket, hcode V i, List.map_cons, Waiting.pending]
  | [] =>
    refine ⟨code, [], hplain, fun V _ i => ?_⟩
    simp only [closeBracket, hcode V i, List.map_nil]

theorem exists_separate (waiting : List Waiting) :
    ∃ code rest, Plain code ∧
      Uniform (fun _ _ i => separate (some (i.binaryOperator .list))
        (waiting.map (Waiting.pending i))) code rest := by
  by_cases h : insideCallee waiting
  · obtain ⟨code, rest, hplain, hcode⟩ := exists_completeInside waiting
    match rest with
    | .call f n :: rest =>
      refine ⟨code, .call f (n + 1) :: rest, hplain, fun V _ i => ?_⟩
      simp only [separate, insideCall_pending, h, hcode V i, List.map_cons, Waiting.pending]
    | .group :: rest =>
      refine ⟨code, .group :: rest, hplain, fun V _ i => ?_⟩
      simp only [separate, insideCall_pending, h, hcode V i, List.map_cons, Waiting.pending]
    | .sign s :: rest =>
      refine ⟨code, .sign s :: rest, hplain, fun V _ i => ?_⟩
      simp only [separate, insideCall_pending, h, hcode V i, List.map_cons, Waiting.pending]
    | .callee f :: rest =>
      refine ⟨code, .callee f :: rest, hplain, fun V _ i => ?_⟩
      simp only [separate, insideCall_pending, h, hcode V i, List.map_cons, Waiting.pending]
    | [] =>
      refine ⟨code, [], hplain, fun V _ i => ?_⟩
      simp only [separate, insideCall_pending, h, hcode V i, List.map_nil]
  · obtain ⟨code, rest, hplain, hcode⟩ := exists_pendOperator (.between .list) waiting
    refine ⟨code, rest, hplain, fun V _ i => ?_⟩
    have hout : insideCallee waiting = false := by simpa using h
    simp only [separate, insideCall_pending, hout]
    exact hcode V i

/-- The word leaves no operand that the next word could go on after. -/
def Word.startsOperand : Option Word → Bool
  | none => true
  | some (.sign _) => true
  | some .minus => true
  | some .opening => true
  | some .separator => true
  | _ => false

theorem startsOperand_token {V : Type} [Operand V] (i : Interpretation V)
    (previous : Option Word) :
    Token.startsOperand (previous.map (Word.token i)) = Word.startsOperand previous := by
  cases previous with
  | none => rfl
  | some w => cases w <;> rfl

/-- Every instruction that a word completes is plain or has the text of that word. -/
theorem exists_emit (previous : Option Word) (waiting : List Waiting) (w : Word) :
    ∃ code rest, (∀ c ∈ code, ∀ v, c.source? = some v → v = w) ∧
      Uniform (fun _ _ i => emit (some (i.binaryOperator .list)) (previous.map (Word.token i))
        (waiting.map (Waiting.pending i)) (w.token i)) code rest := by
  have plain : ∀ {code : List Code}, Plain code → ∀ c ∈ code, ∀ v, c.source? = some v → v = w := by
    intro code h c hc v hv
    rw [h c hc] at hv
    cases hv
  cases w with
  | literal l =>
    refine ⟨[.literal l], waiting, ?_, fun _ _ _ => rfl⟩
    rintro c (_ | ⟨_, ⟨⟩⟩) v ⟨⟩
    rfl
  | reference r =>
    refine ⟨[.reference r], waiting, ?_, fun _ _ _ => rfl⟩
    rintro c (_ | ⟨_, ⟨⟩⟩) v ⟨⟩
    rfl
  | comment label =>
    refine ⟨[.comment label], waiting, ?_, fun _ _ _ => rfl⟩
    rintro c (_ | ⟨_, ⟨⟩⟩) v ⟨⟩
    rfl
  | sign s =>
    obtain ⟨code, rest, hplain, hcode⟩ := exists_pendOperator s waiting
    exact ⟨code, rest, plain hplain, hcode⟩
  | minus =>
    obtain ⟨code, rest, hplain, hcode⟩ := exists_pendOperator
      (if Word.startsOperand previous then .before .negate else .between .subtract) waiting
    refine ⟨code, rest, plain hplain, fun V _ i => ?_⟩
    rw [← hcode V i]
    simp only [emit, Word.token, startsOperand_token]
    cases Word.startsOperand previous <;> rfl
  | callee f => exact ⟨[], .callee f :: waiting, nofun, fun _ _ _ => rfl⟩
  | opening =>
    cases previous with
    | none => exact ⟨[], .group :: waiting, nofun, fun _ _ _ => rfl⟩
    | some p =>
      cases p with
      | callee f =>
        refine ⟨[], .call f 1 :: waiting.tail, nofun, fun V _ i => ?_⟩
        cases waiting <;> rfl
      | _ => exact ⟨[], .group :: waiting, nofun, fun _ _ _ => rfl⟩
  | closing =>
    obtain ⟨code, rest, hplain, hcode⟩ := exists_closeBracket previous waiting
    exact ⟨code, rest, plain hplain, hcode⟩
  | separator =>
    obtain ⟨code, rest, hplain, hcode⟩ := exists_separate waiting
    exact ⟨code, rest, plain hplain, hcode⟩

theorem exists_postfixFrom (previous : Option Word) (waiting : List Waiting) (words : List Word) :
    ∃ code : List Code, (∀ c ∈ code, ∀ v, c.source? = some v → v ∈ words) ∧
      ∀ (V : Type) [Operand V] (i : Interpretation V),
        postfixFrom (some (i.binaryOperator .list)) (previous.map (Word.token i))
          (waiting.map (Waiting.pending i)) (words.map (Word.token i)) =
            code.map (Code.instruction i) := by
  induction words generalizing previous waiting with
  | nil =>
    obtain ⟨code, hplain, hcode⟩ := exists_completeAll waiting
    refine ⟨code, fun c hc v hv => ?_, hcode⟩
    rw [hplain c hc] at hv
    cases hv
  | cons w words ih =>
    obtain ⟨now, rest, hnow, hemit⟩ := exists_emit previous waiting w
    obtain ⟨later, hlater, hpostfix⟩ := ih (some w) rest
    refine ⟨now ++ later, fun c hc v hv => ?_, fun V _ i => ?_⟩
    · rcases List.mem_append.1 hc with hc | hc
      · exact List.mem_cons.2 (.inl (hnow c hc v hv))
      · exact List.mem_cons.2 (.inr (hlater c hc v hv))
    · have hnext := hpostfix V i
      rw [Option.map_some] at hnext
      simp only [List.map_cons, postfixFrom, hemit V i, List.map_append, hnext]

/-- Words come to the same code under every interpretation, and its texts are theirs. -/
theorem exists_toPostfix (words : List Word) :
    ∃ code : List Code, (∀ c ∈ code, ∀ v, c.source? = some v → v ∈ words) ∧
      ∀ (V : Type) [Operand V] (i : Interpretation V),
        toPostfix (some (i.binaryOperator .list)) (words.map (Word.token i)) =
          code.map (Code.instruction i) :=
  exists_postfixFrom none [] words

end FormulaEngine
