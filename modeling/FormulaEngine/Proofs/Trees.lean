import FormulaEngine.Proofs.Execution
import FormulaEngine.Proofs.Writing

/-!
# Trees

Formulas as trees, without regard to how they are written. The tree of a formula is its value where
the words of the language make nodes; the symbol of the formula is made from that tree.
-/
namespace FormulaEngine

open Formula

inductive Tree where
  | literal (l : Literal)
  | reference (r : Reference)
  | prefixed (op : UnaryOperator) (operand : Tree)
  | infixed (op : BinaryOperator) (left right : Tree)
  | call (f : Callee) (arguments : List Tree)
  | annotated (subject : Tree) (label : String)

namespace Tree

mutual

/-- Operands in the order of writing, each node after its operands. -/
def code : Tree → List Code
  | literal l => [.literal l]
  | reference r => [.reference r]
  | prefixed op operand => operand.code ++ [.sign (.before op)]
  | infixed op left right => left.code ++ right.code ++ [.sign (.between op)]
  | call f arguments =>
    codeAll arguments ++ ((if f.isVariadic then [.arity arguments.length] else []) ++ [.callee f])
  | annotated subject label => subject.code ++ [.comment label]

def codeAll : List Tree → List Code
  | [] => []
  | t :: ts => t.code ++ codeAll ts

end

mutual

def symbol : Tree → Symbol
  | literal l => l.value Symbol.writing
  | reference r => .atom (r.opening ++ r.key ++ r.closing)
  | prefixed op operand => Symbol.prefix1 op.symbol op.precedence operand.symbol
  | infixed op left right => Symbol.binary op left.symbol right.symbol
  | call (.many f) arguments => Symbol.functionN f (symbols arguments)
  | call f arguments => .atom (Symbol.call f.name (symbols arguments))
  | annotated subject label => .named subject.symbol label

def symbols : List Tree → List Symbol
  | [] => []
  | t :: ts => t.symbol :: symbols ts

end

def root? : Tree → Option Sign
  | prefixed op _ => some (.before op)
  | infixed op _ _ => some (.between op)
  | _ => none

theorem codeAll_eq_flatMap (ts : List Tree) : codeAll ts = ts.flatMap code := by
  induction ts with
  | nil => rfl
  | cons t ts ih => rw [codeAll, ih, List.flatMap_cons]

theorem symbols_eq_map (ts : List Tree) : symbols ts = ts.map symbol := by
  induction ts with
  | nil => rfl
  | cons t ts ih => rw [symbols, ih, List.map_cons]

end Tree

namespace Tree

instance : Operand Tree where
  ofInteger text := literal (.integer text)
  ofDecimal text := literal (.decimal text)
  ofText text := literal (.quoted "" text)
  quoted t opening _ :=
    match t with
    | literal (.quoted _ text) => literal (.quoted opening text)
    | t => t
  annotate := annotated

/-- The words of the language as the nodes of trees; none of them fails. -/
def building : Interpretation Tree where
  binary op left right := .ok (infixed op left right)
  unary op operand := .ok (prefixed op operand)
  function1 f a := .ok (call (.one f) [a])
  function3 f a b c := .ok (call (.three f) [a, b, c])
  functionN f arguments := .ok (call (.many f) arguments)
  boolean b := literal (.boolean b)
  null := literal .null

def resolver : Resolver Tree := fun r => .ok (.value (reference r))

/-- What the code has left on the stack so far, the last part first. -/
def codeOf : Stack Tree → List Code
  | [] => []
  | .value t :: stack => codeOf stack ++ t.code
  | .arity n :: stack => codeOf stack ++ [.arity n]

def onStack : StackItem Tree → StackItem Symbol
  | .value t => .value t.symbol
  | .arity n => .arity n

theorem popOperand_inv {name : String} {position : Nat} {items : Stack Tree} {v : Symbol}
    {stack : Stack Symbol}
    (h : popOperand name position (items.map onStack) = .ok (v, stack)) :
    ∃ t rest, items = .value t :: rest ∧ v = t.symbol ∧ stack = rest.map onStack := by
  cases items with
  | nil => cases h
  | cons item items =>
    cases item with
    | arity n => cases h
    | value t =>
      cases h
      exact ⟨t, items, rfl, rfl, rfl⟩

theorem popArguments_inv {name : String} {position count : Nat} {later : List Tree}
    {vs : List Symbol} {items : Stack Tree} {stack : Stack Symbol}
    (h : popArguments name position count (later.map symbol) (items.map onStack) =
      .ok (vs, stack)) :
    ∃ ts rest, popArguments name position count later items = .ok (ts ++ later, rest) ∧
      vs = (ts ++ later).map symbol ∧ stack = rest.map onStack ∧ ts.length = count ∧
      codeOf items = codeOf rest ++ codeAll ts := by
  induction count generalizing position later items with
  | zero =>
    cases h
    exact ⟨[], items, rfl, rfl, rfl, rfl, (List.append_nil _).symm⟩
  | succ count ih =>
    rw [popArguments] at h
    split at h
    · cases h
    · rename_i v below hpop
      obtain ⟨t, rest, rfl, rfl, rfl⟩ := popOperand_inv hpop
      rw [← List.map_cons] at h
      obtain ⟨ts, rest', hpopped, rfl, rfl, rfl, hcode⟩ := ih h
      refine ⟨ts ++ [t], rest', ?_, by simp, rfl, by simp, ?_⟩
      · rw [List.append_assoc]
        exact hpopped
      · simp [codeOf, hcode, codeAll_eq_flatMap]

theorem invoke_sign_inv {g : Sign} {name : String} {items : Stack Tree} {stack : Stack Symbol}
    (h : (g.operator Symbol.writing).operation.invoke name (items.map onStack) = .ok stack) :
    ∃ items', (g.operator building).operation.invoke name items = .ok items' ∧
      stack = items'.map onStack ∧ codeOf items' = codeOf items ++ [.sign g] := by
  cases g with
  | before op =>
    obtain ⟨⟨_, _⟩, hpop, h⟩ := bind_eq_ok.1 h
    obtain ⟨t, rest, rfl, rfl, rfl⟩ := popOperand_inv hpop
    cases h
    exact ⟨_, rfl, rfl, by simp [codeOf, code]⟩
  | between op =>
    obtain ⟨⟨_, _⟩, hpop, h⟩ := bind_eq_ok.1 h
    obtain ⟨right, _, rfl, rfl, rfl⟩ := popOperand_inv hpop
    obtain ⟨⟨_, _⟩, hpop, h⟩ := bind_eq_ok.1 h
    obtain ⟨left, rest, rfl, rfl, rfl⟩ := popOperand_inv hpop
    cases h
    exact ⟨_, rfl, rfl, by simp [codeOf, code]⟩

theorem invoke_callee_inv {f : Callee} {name : String} {items : Stack Tree}
    {stack : Stack Symbol}
    (h : (f.symbol Symbol.writing).operation.invoke name (items.map onStack) = .ok stack) :
    ∃ items', (f.symbol building).operation.invoke name items = .ok items' ∧
      stack = items'.map onStack ∧ codeOf items' = codeOf items ++ [.callee f] := by
  cases f with
  | one f =>
    obtain ⟨⟨_, _⟩, hpop, h⟩ := bind_eq_ok.1 h
    obtain ⟨t, rest, rfl, rfl, rfl⟩ := popOperand_inv hpop
    cases h
    exact ⟨_, rfl, rfl, by simp [codeOf, code, codeAll, Callee.isVariadic]⟩
  | three f =>
    obtain ⟨⟨_, _⟩, hpop, h⟩ := bind_eq_ok.1 h
    obtain ⟨c, _, rfl, rfl, rfl⟩ := popOperand_inv hpop
    obtain ⟨⟨_, _⟩, hpop, h⟩ := bind_eq_ok.1 h
    obtain ⟨b, _, rfl, rfl, rfl⟩ := popOperand_inv hpop
    obtain ⟨⟨_, _⟩, hpop, h⟩ := bind_eq_ok.1 h
    obtain ⟨a, rest, rfl, rfl, rfl⟩ := popOperand_inv hpop
    cases h
    exact ⟨_, rfl, rfl, by simp [codeOf, code, codeAll, Callee.isVariadic]⟩
  | many f =>
    cases items with
    | nil => cases h
    | cons item items =>
      cases item with
      | value t => cases h
      | arity n =>
        obtain ⟨⟨_, _⟩, hpop, hresult⟩ := bind_eq_ok.1 h
        have hnone : ([] : List Symbol) = ([] : List Tree).map symbol := rfl
        rw [hnone] at hpop
        obtain ⟨ts, rest, hpopped, rfl, rfl, rfl, hcode⟩ := popArguments_inv hpop
        rw [List.append_nil] at hpopped hresult
        cases hresult
        refine ⟨.value (call (.many f) ts) :: rest, ?_, ?_, ?_⟩
        · exact bind_eq_ok.2 ⟨_, hpopped, rfl⟩
        · simp [onStack, symbol, symbols_eq_map]
        · simp [codeOf, code, hcode, Callee.isVariadic]

theorem effect_inv {c : Code} {items : Stack Tree} {e : Effect Symbol}
    (h : (c.instruction Symbol.writing).effect [Symbol.resolver] (items.map onStack) = .ok e) :
    ∃ items', (c.instruction building).effect [resolver] items = .ok (.goOn items') ∧
      e = .goOn (items'.map onStack) ∧ codeOf items' = codeOf items ++ [c] := by
  cases c with
  | literal l =>
    cases h
    refine ⟨.value (.literal l) :: items, ?_, rfl, rfl⟩
    cases l <;> rfl
  | reference r =>
    cases h
    exact ⟨_, rfl, rfl, rfl⟩
  | arity n =>
    cases h
    exact ⟨_, rfl, rfl, rfl⟩
  | sign g =>
    obtain ⟨stack, hinvoke, rfl⟩ := map_eq_ok.1 h
    have hname : (g.operator Symbol.writing).symbol = (g.operator building).symbol := by
      cases g <;> rfl
    rw [hname] at hinvoke
    obtain ⟨items', hmade, rfl, hcode⟩ := invoke_sign_inv hinvoke
    exact ⟨items', map_eq_ok.2 ⟨_, hmade, rfl⟩, rfl, hcode⟩
  | callee f =>
    obtain ⟨stack, hinvoke, rfl⟩ := map_eq_ok.1 h
    have hname : (f.symbol Symbol.writing).name = (f.symbol building).name := by
      cases f <;> rfl
    rw [hname] at hinvoke
    obtain ⟨items', hmade, rfl, hcode⟩ := invoke_callee_inv hinvoke
    exact ⟨items', map_eq_ok.2 ⟨_, hmade, rfl⟩, rfl, hcode⟩
  | comment label =>
    obtain ⟨⟨_, _⟩, hpop, h⟩ := bind_eq_ok.1 h
    obtain ⟨t, rest, rfl, rfl, rfl⟩ := popOperand_inv hpop
    cases h
    exact ⟨.value (.annotated t label) :: rest, rfl, rfl, by simp [codeOf, code]⟩

theorem execute_inv {more : List Code} {items : Stack Tree} {stack : Stack Symbol}
    (h : execute [Symbol.resolver] (instructions Symbol.writing more) (items.map onStack) =
      .ok stack) :
    ∃ items', execute [resolver] (instructions building more) items = .ok items' ∧
      stack = items'.map onStack ∧ codeOf items' = codeOf items ++ more := by
  induction more generalizing items with
  | nil =>
    rw [instructions, List.map_nil, execute_nil] at h
    cases h
    exact ⟨items, execute_nil _ _, rfl, (List.append_nil _).symm⟩
  | cons c more ih =>
    rw [instructions, List.map_cons] at h
    cases heffect : (c.instruction Symbol.writing).effect [Symbol.resolver]
        (items.map onStack) with
    | error e =>
      rw [execute_cons_error heffect] at h
      cases h
    | ok e =>
      obtain ⟨next, hmade, rfl, hnext⟩ := effect_inv heffect
      rw [execute_cons_goOn heffect] at h
      obtain ⟨items', hexecute, hstack, hcode⟩ := ih h
      refine ⟨items', ?_, hstack, by rw [hcode, hnext, List.append_assoc]; rfl⟩
      rw [instructions, List.map_cons, execute_cons_goOn hmade]
      exact hexecute

end Tree

/-- Code that comes to a symbol comes to a tree: that of the code, which stands for the symbol. -/
theorem exists_tree {code : List Code} {text : String} {s : Symbol}
    (h : (Program.mk (instructions Symbol.writing code) text).evaluate [Symbol.resolver] = .ok s) :
    ∃ t : Tree,
      (Program.mk (instructions Tree.building code) text).evaluate [Tree.resolver] = .ok t ∧
      t.code = code ∧ t.symbol = s := by
  have hrun : execute [Symbol.resolver] (instructions Symbol.writing code)
      (([] : Stack Tree).map Tree.onStack) = .ok [.value s] := execute_eq_of_evaluate h
  obtain ⟨items, hexecute, hstack, hcode⟩ := Tree.execute_inv hrun
  cases items with
  | nil => cases hstack
  | cons item items =>
    obtain ⟨hitem, hitems⟩ := List.cons.inj hstack
    obtain rfl : items = [] := List.map_eq_nil_iff.1 hitems.symm
    cases item with
    | arity n => cases hitem
    | value t =>
      cases hitem
      refine ⟨t, ?_, by simpa [Tree.codeOf] using hcode, rfl⟩
      rw [evaluate_eq_execute, hexecute]
      rfl

end FormulaEngine
