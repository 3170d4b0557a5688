import FormulaEngine.Proofs.Merging
import FormulaEngine.Proofs.Trees

/-!
# Folding

What simplifying does to a tree: conjunctions and disjunctions become flat calls and lose their
constants. The symbol that a tree stands for shows the folded tree.
-/
namespace FormulaEngine

open Formula

namespace Formula.BinaryOperator

/-- The constant that decides a disjunction (true) or a conjunction (false) at once. -/
def absorbing? : BinaryOperator → Option Bool
  | either => some true
  | both => some false
  | _ => none

def math? : BinaryOperator → Option MathOperator
  | add => some .add
  | subtract => some .subtract
  | multiply => some .multiply
  | divide => some .divide
  | _ => none

end Formula.BinaryOperator

def Callee.absorbing? : Callee → Option Bool
  | many .any => some true
  | many .all => some false
  | _ => none

namespace Tree

/-- What stays of an element; nothing can if it decides the whole. -/
def kept (absorbing : Bool) : Tree → Option (List Tree)
  | literal (.boolean b) => if b = absorbing then none else some []
  | call f nested => if f.absorbing? = some absorbing then some nested else some [call f nested]
  | t => some [t]

def keep (absorbing : Bool) : List Tree → Option (List Tree)
  | [] => some []
  | t :: ts => (kept absorbing t).bind fun now => (keep absorbing ts).map (now ++ ·)

theorem merges (absorbing : Bool) : Merges (kept absorbing) (keep absorbing) :=
  ⟨rfl, fun _ _ => rfl⟩

/-- A disjunction (`absorbing` is true) or a conjunction (it is false), flat and without constants;
a single element stands for itself. -/
def fold (absorbing : Bool) (ts : List Tree) : Tree :=
  match keep absorbing ts with
  | none => literal (.boolean absorbing)
  | some [] => literal (.boolean !absorbing)
  | some [t] => t
  | some ts => call (.many (if absorbing then .any else .all)) ts

section

variable (join : BinaryOperator → Tree → Tree → Tree)

mutual

/-- Builds the tree anew from below, with conjunctions and disjunctions folded and any other
operator between its operands put there by `join`. -/
def rebuild : Tree → Tree
  | literal l => literal l
  | reference r => reference r
  | prefixed op operand => prefixed op (rebuild operand)
  | infixed op left right =>
    match op.absorbing? with
    | some absorbing => fold absorbing [rebuild left, rebuild right]
    | none => join op (rebuild left) (rebuild right)
  | call f arguments =>
    match f.absorbing? with
    | some absorbing => fold absorbing (rebuildAll arguments)
    | none => call f (rebuildAll arguments)
  | annotated subject label => annotated (rebuild subject) label

def rebuildAll : List Tree → List Tree
  | [] => []
  | t :: ts => rebuild t :: rebuildAll ts

end

theorem rebuildAll_eq_map (ts : List Tree) : rebuildAll join ts = ts.map (rebuild join) := by
  induction ts with
  | nil => rfl
  | cons t ts ih => rw [rebuildAll, ih, List.map_cons]

end

def folded : Tree → Tree := rebuild infixed

mutual

def draw : Tree → Symbol
  | literal l => l.value Symbol.writing
  | reference r => .atom (r.opening ++ r.key ++ r.closing)
  | prefixed op operand => Symbol.prefix1 op.symbol op.precedence operand.draw
  | infixed op left right =>
    match op.math? with
    | some m => .math m left.draw right.draw
    | none => Symbol.infix2 op.symbol op.precedence op.associativity left.draw right.draw
  | call f arguments =>
    match f.absorbing? with
    | some true => .any (drawAll arguments)
    | some false => .all (drawAll arguments)
    | none => .atom (Symbol.call f.name (drawAll arguments))
  | annotated subject label => .named subject.draw label

def drawAll : List Tree → List Symbol
  | [] => []
  | t :: ts => t.draw :: drawAll ts

end

theorem drawAll_eq_map (ts : List Tree) : drawAll ts = ts.map draw := by
  induction ts with
  | nil => rfl
  | cons t ts ih => rw [drawAll, ih, List.map_cons]

theorem keep_draw_cons (absorbing : Bool) (t : Tree) (rest : List Symbol) :
    Symbol.keep absorbing (t.draw :: rest) =
      (kept absorbing t).bind fun now =>
        (Symbol.keep absorbing rest).map (now.map draw ++ ·) := by
  cases t with
  | literal l =>
    cases l with
    | boolean b =>
      by_cases hb : b = absorbing
      · simp [draw, Literal.value, Symbol.writing, Symbol.keep, kept, hb]
      · simp [draw, Literal.value, Symbol.writing, Symbol.keep, kept, hb]
    | _ => rfl
  | infixed op left right => cases op <;> rfl
  | call f nested =>
    rw [draw, kept]
    cases hf : f.absorbing? with
    | none => simp [Symbol.keep, draw, hf]
    | some b =>
      cases b <;> cases absorbing <;> simp [Symbol.keep, draw, hf, drawAll_eq_map]
  | _ => rfl

theorem keep_draw (absorbing : Bool) (ts : List Tree) :
    Symbol.keep absorbing (ts.map draw) = (keep absorbing ts).map (List.map draw) := by
  induction ts with
  | nil => rfl
  | cons t ts ih =>
    rw [List.map_cons, keep_draw_cons, ih, keep]
    cases kept absorbing t with
    | none => rfl
    | some now => cases keep absorbing ts <;> simp

theorem draw_fold (absorbing : Bool) (ts : List Tree) :
    (fold absorbing ts).draw = Symbol.fold absorbing (ts.map draw) := by
  rw [fold, Symbol.fold, keep_draw]
  match keep absorbing ts with
  | none => rfl
  | some [] => rfl
  | some [t] => rfl
  | some (t :: u :: ts) =>
    cases absorbing <;> simp [draw, Callee.absorbing?, drawAll_eq_map]

mutual

/-- A tree stands for the symbol that shows it after folding. -/
theorem symbol_eq_draw (t : Tree) : t.symbol = t.folded.draw := by
  cases t with
  | literal l => rfl
  | reference r => rfl
  | prefixed op operand =>
    have hoperand := operand.symbol_eq_draw
    simp only [folded, rebuild, draw, symbol] at hoperand ⊢
    rw [hoperand]
  | infixed op left right =>
    have hleft := left.symbol_eq_draw
    have hright := right.symbol_eq_draw
    simp only [folded] at hleft hright
    simp only [folded, rebuild, symbol, hleft, hright]
    cases op with
    | both => exact (draw_fold false [_, _]).symm
    | either => exact (draw_fold true [_, _]).symm
    | _ => rfl
  | call f arguments =>
    have harguments := symbols_eq_drawAll arguments
    have hname : f.absorbing? = none →
        symbol (call f arguments) = .atom (Symbol.call f.name (symbols arguments)) := by
      intro hf
      cases f with
      | many f => cases f <;> first | rfl | cases hf
      | _ => rfl
    simp only [folded, rebuild]
    cases hf : f.absorbing? with
    | none => simp only [hname hf, draw, hf, harguments]
    | some absorbing =>
      simp only [draw_fold, ← drawAll_eq_map, ← harguments]
      cases f with
      | many f => cases f <;> first | (cases hf; rfl) | cases hf
      | _ => cases hf
  | annotated subject label =>
    have hsubject := subject.symbol_eq_draw
    simp only [folded, rebuild, draw, symbol] at hsubject ⊢
    rw [hsubject]

theorem symbols_eq_drawAll (ts : List Tree) : symbols ts = drawAll (rebuildAll infixed ts) := by
  cases ts with
  | nil => rfl
  | cons t ts =>
    have ht := t.symbol_eq_draw
    have hts := symbols_eq_drawAll ts
    simp only [folded] at ht
    simp only [symbols, rebuildAll, drawAll, ht, hts]

end

theorem mem_code_of_kept {absorbing : Bool} {t : Tree} {ts : List Tree}
    (h : kept absorbing t = some ts) : ∀ c ∈ codeAll ts, c ∈ t.code := by
  intro c hc
  cases t with
  | literal l =>
    cases l with
    | boolean b =>
      rw [kept] at h
      split at h
      · cases h
      · cases h
        cases hc
    | _ => cases h; simpa [codeAll] using hc
  | call f nested =>
    rw [kept] at h
    split at h
    · cases h
      simp [code, hc]
    · cases h
      simpa [codeAll] using hc
  | _ => cases h; simpa [codeAll] using hc

theorem mem_code_of_keep {absorbing : Bool} {ts us : List Tree}
    (h : keep absorbing ts = some us) : ∀ c ∈ codeAll us, c ∈ codeAll ts := by
  induction ts generalizing us with
  | nil =>
    cases h
    exact fun c hc => hc
  | cons t ts ih =>
    obtain ⟨now, hnow, hmore⟩ := Option.bind_eq_some_iff.1 h
    obtain ⟨later, hlater, rfl⟩ := Option.map_eq_some_iff.1 hmore
    intro c hc
    rw [codeAll_eq_flatMap, List.flatMap_append, ← codeAll_eq_flatMap, ← codeAll_eq_flatMap] at hc
    rcases List.mem_append.1 hc with hc | hc
    · exact List.mem_append_left _ (mem_code_of_kept hnow c hc)
    · exact List.mem_append_right _ (ih hlater c hc)

theorem mem_code_call {f : Callee} {arguments : List Tree} {c : Code}
    (h : c ∈ (call f arguments).code) :
    c ∈ codeAll arguments ∨ c = .arity arguments.length ∨ c = .callee f := by
  rw [code] at h
  cases hf : f.isVariadic with
  | true => simpa [hf] using h
  | false =>
    have hc : c ∈ codeAll arguments ∨ c = .callee f := by simpa [hf] using h
    exact hc.imp_right .inr

section

variable {P : Code → Prop} (boolean : ∀ b, P (.literal (.boolean b))) (arity : ∀ n, P (.arity n))
  (callee : ∀ f, P (.callee f))

include boolean arity callee

theorem forall_code_fold {absorbing : Bool} {ts : List Tree} (h : ∀ c ∈ codeAll ts, P c) :
    ∀ c ∈ (fold absorbing ts).code, P c := by
  intro c hc
  rw [fold] at hc
  split at hc
  · obtain rfl := List.mem_singleton.1 hc
    exact boolean _
  · obtain rfl := List.mem_singleton.1 hc
    exact boolean _
  · rename_i t hkeep
    exact h c (mem_code_of_keep hkeep c (by simpa [codeAll] using hc))
  · rename_i us _ _ hkeep
    obtain hc | rfl | rfl := mem_code_call hc
    · exact h c (mem_code_of_keep hkeep c hc)
    · exact arity _
    · exact callee _

/-- Folding keeps what holds of all code but the signs that it takes away. -/
theorem forall_code_folded (t : Tree)
    (h : ∀ c ∈ t.code, (∀ op, c = .sign (.between op) → op.absorbing? = none) → P c) :
    ∀ c ∈ t.folded.code, P c := by
  cases t with
  | literal l => exact fun c hc => h c hc (by simp_all [folded, rebuild, code])
  | reference r => exact fun c hc => h c hc (by simp_all [folded, rebuild, code])
  | prefixed op operand =>
    have hoperand := operand.forall_code_folded fun c hc => h c (by simp [code, hc])
    intro c hc
    rcases List.mem_append.1 hc with hc | hc
    · exact hoperand c hc
    · obtain rfl := List.mem_singleton.1 hc
      exact h _ (by simp [code]) (by simp)
  | infixed op left right =>
    have hleft := left.forall_code_folded fun c hc => h c (by simp [code, hc])
    have hright := right.forall_code_folded fun c hc => h c (by simp [code, hc])
    simp only [folded, rebuild] at hleft hright ⊢
    cases hop : op.absorbing? with
    | some absorbing =>
      refine forall_code_fold boolean arity callee fun c hc => ?_
      simp only [codeAll, List.append_nil] at hc
      rcases List.mem_append.1 hc with hc | hc
      · exact hleft c hc
      · exact hright c hc
    | none =>
      intro c hc
      rcases List.mem_append.1 hc with hc | hc
      · rcases List.mem_append.1 hc with hc | hc
        · exact hleft c hc
        · exact hright c hc
      · obtain rfl := List.mem_singleton.1 hc
        refine h _ (by simp [code]) fun op' hop' => ?_
        cases hop'
        exact hop
  | call f arguments =>
    have harguments : ∀ c ∈ codeAll (rebuildAll infixed arguments), P c := by
      intro c hc
      rw [rebuildAll_eq_map, codeAll_eq_flatMap, List.flatMap_map] at hc
      obtain ⟨t, ht, hc⟩ := List.mem_flatMap.1 hc
      refine t.forall_code_folded (fun d hd => h d ?_) c hc
      rw [code, codeAll_eq_flatMap]
      exact List.mem_append_left _ (List.mem_flatMap.2 ⟨t, ht, hd⟩)
    simp only [folded, rebuild]
    cases hf : f.absorbing? with
    | some absorbing => exact forall_code_fold boolean arity callee harguments
    | none =>
      intro c hc
      obtain hc | rfl | rfl := mem_code_call hc
      · exact harguments c hc
      · exact arity _
      · exact callee _
  | annotated subject label =>
    have hsubject := subject.forall_code_folded fun c hc => h c (by simp [code, hc])
    intro c hc
    rcases List.mem_append.1 hc with hc | hc
    · exact hsubject c hc
    · obtain rfl := List.mem_singleton.1 hc
      exact h _ (by simp [code]) (by simp)

end

end Tree

end FormulaEngine
