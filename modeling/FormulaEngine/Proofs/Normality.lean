import FormulaEngine.Proofs.Agreement
import FormulaEngine.Proofs.Invariants
import FormulaEngine.Proofs.Merging

/-!
# Normality

Folding symbols keeps their truth together and leaves normal symbols. It takes out one level of
nesting only, which is enough because all symbols on the stack are normal whenever a formula is
simplified.
-/
namespace FormulaEngine

open Formula

namespace Symbol

mutual

/-- The truth of a symbol, given that of the symbols that are neither constants nor disjunctions nor
conjunctions. -/
def truth (env : Symbol → Bool) : Symbol → Bool
  | .boolean b => b
  | .any items => junction true (truths env items)
  | .all items => junction false (truths env items)
  | s => env s

def truths (env : Symbol → Bool) : List Symbol → List Bool
  | [] => []
  | s :: rest => s.truth env :: truths env rest

end

/-- What stays of an element; nothing can if it decides the whole. -/
def kept (absorbing : Bool) : Symbol → Option (List Symbol)
  | .boolean b => if b = absorbing then none else some []
  | .any nested => some (if absorbing then nested else [.any nested])
  | .all nested => some (if absorbing then [.all nested] else nested)
  | s => some [s]

theorem merges (absorbing : Bool) : Merges (kept absorbing) (keep absorbing) where
  nil := rfl
  cons s rest := by
    cases s with
    | boolean b => by_cases hb : b = absorbing <;> simp [keep, kept, hb]
    | _ => cases absorbing <;> simp [keep, kept]

section Truth

variable (env : Symbol → Bool) {absorbing : Bool} {s : Symbol} {items : List Symbol}

theorem truths_eq_map (items : List Symbol) : truths env items = items.map (truth env) := by
  induction items with
  | nil => rfl
  | cons s rest ih => rw [truths, ih, List.map_cons]

theorem truth_of_kept_eq_none (h : kept absorbing s = none) : s.truth env = absorbing := by
  cases s with
  | boolean b =>
    rw [kept] at h
    split at h
    · assumption
    · cases h
  | _ => cases h

theorem junction_of_kept (h : kept absorbing s = some items) :
    junction absorbing (items.map (truth env)) = s.truth env := by
  cases s with
  | boolean b =>
    rw [kept] at h
    split at h
    · cases h
    · rename_i hb
      cases h
      exact (Bool.eq_not_of_ne hb).symm
  | any nested =>
    cases h
    cases absorbing with
    | false => exact junction_singleton _ _
    | true => rw [truth, truths_eq_map, if_pos rfl]
  | all nested =>
    cases h
    cases absorbing with
    | false => rw [truth, truths_eq_map, if_neg Bool.false_ne_true]
    | true => exact junction_singleton _ _
  | _ =>
    cases h
    exact junction_singleton _ _

theorem truth_fold (absorbing : Bool) (items : List Symbol) :
    (fold absorbing items).truth env = junction absorbing (items.map (truth env)) := by
  have hkept : ∀ us, keep absorbing items = some us →
      junction absorbing (us.map (truth env)) = junction absorbing (items.map (truth env)) :=
    fun us => (merges absorbing).junction_of_eq_some fun _ _ => junction_of_kept env
  rw [fold]
  split
  · rename_i hkeep
    exact ((merges absorbing).junction_of_eq_none (fun _ => truth_of_kept_eq_none env) hkeep).symm
  · rename_i hkeep
    exact hkept _ hkeep
  · rename_i s hkeep
    rw [← hkept _ hkeep]
    exact (junction_singleton _ _).symm
  · rename_i us _ _ hkeep
    rw [← hkept _ hkeep, ← truths_eq_map]
    cases absorbing <;> rfl

end Truth

/-- An element of a disjunction (`absorbing` is true) or of a conjunction (it is false) that is
neither a constant nor could be merged. -/
def Stays (absorbing : Bool) : Symbol → Prop
  | .boolean _ => False
  | .any _ => absorbing = false
  | .all _ => absorbing = true
  | _ => True

/-- At every depth, disjunctions and conjunctions have at least two elements, all of which stay. -/
inductive Normal : Symbol → Prop
  | atom (text : String) : Normal (.atom text)
  | boolean (b : Bool) : Normal (.boolean b)
  | infixed (text : String) (precedence : Nat) : Normal (.infixed text precedence)
  | math {op : MathOperator} {left right : Symbol} (first : Normal left) (second : Normal right) :
    Normal (.math op left right)
  | any {items : List Symbol} (several : 2 ≤ items.length) (stay : ∀ s ∈ items, s.Stays true)
    (each : ∀ s ∈ items, Normal s) : Normal (.any items)
  | all {items : List Symbol} (several : 2 ≤ items.length) (stay : ∀ s ∈ items, s.Stays false)
    (each : ∀ s ∈ items, Normal s) : Normal (.all items)
  | named {subject : Symbol} {label : String} (inner : Normal subject) :
    Normal (.named subject label)

namespace Normal

variable {absorbing : Bool} {s : Symbol} {items : List Symbol}

/-- The elements of a normal symbol that is merged have none among them to be merged in turn. -/
theorem of_mem_kept (h : s.Normal) (hkept : kept absorbing s = some items) :
    ∀ t ∈ items, t.Normal ∧ t.Stays absorbing := by
  have itself := h
  cases h with
  | boolean b =>
    rw [kept] at hkept
    split at hkept
    · cases hkept
    · cases hkept
      exact List.forall_mem_nil _
  | any several stay each =>
    cases hkept
    cases absorbing with
    | false => exact List.forall_mem_singleton.2 ⟨itself, rfl⟩
    | true => exact fun t ht => ⟨each t ht, stay t ht⟩
  | all several stay each =>
    cases hkept
    cases absorbing with
    | false => exact fun t ht => ⟨each t ht, stay t ht⟩
    | true => exact List.forall_mem_singleton.2 ⟨itself, rfl⟩
  | _ =>
    cases hkept
    exact List.forall_mem_singleton.2 ⟨itself, trivial⟩

theorem fold (h : ∀ s ∈ items, s.Normal) : (fold absorbing items).Normal := by
  have hkept : ∀ us, keep absorbing items = some us → ∀ t ∈ us, t.Normal ∧ t.Stays absorbing :=
    fun us hkeep => (merges absorbing).forall_mem (fun _ _ hs ht => ht.of_mem_kept hs) hkeep h
  rw [Symbol.fold]
  split
  · exact .boolean _
  · exact .boolean _
  · rename_i s hkeep
    exact (hkept _ hkeep s List.mem_cons_self).1
  · rename_i us hnone hone hkeep
    have hus := hkept us hkeep
    have several : 2 ≤ us.length := by
      rcases us with _ | ⟨s, _ | ⟨t, us⟩⟩
      · exact absurd rfl hnone
      · exact absurd rfl (hone s)
      · simp
    cases absorbing with
    | false => exact .all several (fun t ht => (hus t ht).2) fun t ht => (hus t ht).1
    | true => exact .any several (fun t ht => (hus t ht).2) fun t ht => (hus t ht).1

theorem binary (op : BinaryOperator) {left right : Symbol} (first : left.Normal)
    (second : right.Normal) : (binary op left right).Normal := by
  have both : ∀ s ∈ [left, right], s.Normal := by simp [first, second]
  cases op with
  | both => exact fold both
  | either => exact fold both
  | add => exact .math first second
  | subtract => exact .math first second
  | multiply => exact .math first second
  | divide => exact .math first second
  | _ => exact .infixed _ _

theorem functionN (f : VariadicFunction) (each : ∀ s ∈ items, s.Normal) :
    (functionN f items).Normal := by
  cases f with
  | any => exact fold each
  | all => exact fold each
  | _ => exact .atom _

end Normal

/-- All instructions of a formula that is simplified make normal symbols of normal ones. -/
theorem keeps_normal (c : Code) : (c.instruction writing).Keeps Normal := by
  cases c with
  | literal l =>
    cases l with
    | boolean b => exact .boolean b
    | _ => exact .atom _
  | reference r => trivial
  | arity n => trivial
  | comment label => exact fun _ hs => .named hs
  | sign g =>
    cases g with
    | before op =>
      refine .unary fun _ _ _ h => ?_
      cases h
      exact .infixed _ _
    | between op =>
      refine .binary fun _ _ first second _ h => ?_
      cases h
      exact .binary op first second
  | callee f =>
    cases f with
    | one f =>
      refine .unary fun _ _ _ h => ?_
      cases h
      exact .atom _
    | three f =>
      refine .ternary fun _ _ _ _ _ _ _ h => ?_
      cases h
      exact .atom _
    | many f =>
      refine .variadic fun _ each _ h => ?_
      cases h
      exact .functionN f each

theorem resolver_keeps_normal : Resolver.Keeps Normal resolver :=
  ⟨by rintro r s ⟨⟩; exact .atom _, nofun⟩

end Symbol

/-- A folded disjunction is true if and only if some element is, a conjunction if and only if every
element is, and so are those that are left in symbols. Whenever a formula is simplified, all symbols
that are made on the way are normal. -/
theorem folding_sound_normal :
    (∀ (env : Symbol → Bool) (items : List Symbol),
      ((Symbol.disjunction items).truth env = true ↔ ∃ s ∈ items, s.truth env = true) ∧
      ((Symbol.conjunction items).truth env = true ↔ ∀ s ∈ items, s.truth env = true) ∧
      ((Symbol.any items).truth env = true ↔ ∃ s ∈ items, s.truth env = true) ∧
      ((Symbol.all items).truth env = true ↔ ∀ s ∈ items, s.truth env = true)) ∧
    ∀ o : Options, ∃ g, symbolGrammar o = .ok g ∧ ∀ text p, g.compile text = .ok p →
      (∀ m, (p.start [Symbol.resolver]).Reaches m → Stack.All Symbol.Normal m.stack) ∧
      ∀ s, p.evaluate [Symbol.resolver] = .ok s → s.Normal := by
  refine ⟨fun env items => ⟨?_, ?_, ?_, ?_⟩, fun o => ?_⟩
  · rw [Symbol.disjunction, Symbol.truth_fold, junction_true_iff, List.mem_map]
  · rw [Symbol.conjunction, Symbol.truth_fold, junction_false_iff, List.forall_mem_map]
  · rw [Symbol.truth, Symbol.truths_eq_map, junction_true_iff, List.mem_map]
  · rw [Symbol.truth, Symbol.truths_eq_map, junction_false_iff, List.forall_mem_map]
  · obtain ⟨g, hg, speaks⟩ := exists_symbolGrammar o
    refine ⟨g, hg, fun text p compiled => ?_⟩
    obtain ⟨e, hfails, -⟩ | ⟨code, hcode, -⟩ := speaks.compile_cases speaks text
    · rw [hfails] at compiled
      cases compiled
    · rw [hcode] at compiled
      cases compiled
      have hkeeps : (Program.mk (instructions Symbol.writing code) text).Keeps Symbol.Normal :=
        List.forall_mem_map.2 fun c _ => Symbol.keeps_normal c
      have hresolving := List.forall_mem_singleton.2 Symbol.resolver_keeps_normal
      exact ⟨fun m => hkeeps.all_of_reaches hresolving, fun s => hkeeps.of_evaluate hresolving⟩

/-- A disjunction among the arguments of another one is merged into it. -/
theorem folding_sound_normal_merged :
    ∃ g p s, symbolGrammar {} = .ok g ∧ g.compile "any(@a,@b OR @c)" = .ok p ∧
      p.evaluate [Symbol.resolver] = .ok s ∧ s.formulaText = "any(@a,@b,@c)" ∧ s.Normal ∧
      (p.start [Symbol.resolver]).Reaches ⟨[], [.value s]⟩ ∧
      Stack.All Symbol.Normal [.value s] := by
  obtain ⟨g, hg, hnormal⟩ := folding_sound_normal.2 {}
  have htext : (symbol {} "any(@a,@b OR @c)").toOption.map Symbol.formulaText =
      some "any(@a,@b,@c)" := by
    rw [symbol_eq_compileAs]
    decide +kernel
  obtain ⟨s, hsymbol, hs⟩ := Option.map_eq_some_iff.1 htext
  obtain ⟨p, hcompile, hvalue⟩ := (symbol_eq_ok_iff hg).1 (toOption_eq_some.1 hsymbol)
  obtain ⟨hstates, hresult⟩ := hnormal _ p hcompile
  have hreaches := Program.reaches_of_evaluate hvalue
  exact ⟨g, p, s, hg, hcompile, hvalue, hs, hresult s hvalue, hreaches, hstates _ hreaches⟩

end FormulaEngine
