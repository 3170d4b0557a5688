import FormulaEngine.Proofs.Folding
import FormulaEngine.Proofs.Lexing

/-!
# Layout

The words that a tree is written in, with brackets where its place asks for them.
-/
namespace FormulaEngine

open Formula

namespace Formula.BinaryOperator

def word : BinaryOperator → Word
  | list => .separator
  | subtract => .minus
  | op => .sign (.between op)

theorem text_word (op : BinaryOperator) : op.word.text = op.symbol := by
  cases op <;> rfl

def leftPlace (op : BinaryOperator) : Symbol.Place :=
  match op.math? with
  | some m => .mathOperand m false
  | none => .operand op.precedence (op.associativity == .left)

def rightPlace (op : BinaryOperator) : Symbol.Place :=
  match op.math? with
  | some m => .mathOperand m true
  | none => .operand op.precedence (op.associativity == .right)

def standsAt (op : BinaryOperator) (place : Symbol.Place) : Bool :=
  match op.math? with
  | some m => place.admitsMath m
  | none => place.admitsInfix op.precedence

end Formula.BinaryOperator

namespace Formula.UnaryOperator

def word : UnaryOperator → Word
  | negate => .minus
  | not => .sign (.before .not)

theorem text_word (op : UnaryOperator) : op.word.text = op.symbol := by
  cases op <;> rfl

end Formula.UnaryOperator

def bracketUnless (bare : Bool) (words : List Word) : List Word :=
  if bare then words else .opening :: (words ++ [.closing])

namespace Tree

mutual

/-- The words of a tree at some place. -/
def words (place : Symbol.Place) : Tree → List Word
  | literal l => [.literal l]
  | reference r => [.reference r]
  | prefixed op operand =>
    bracketUnless (place.admitsInfix op.precedence)
      (op.word :: operand.words (.operand op.precedence false))
  | infixed op left right =>
    bracketUnless (op.standsAt place)
      (left.words op.leftPlace ++ op.word :: right.words op.rightPlace)
  | call f arguments =>
    .callee f :: .opening :: ([.separator].intercalate (wordsAll arguments) ++ [.closing])
  | annotated subject label => subject.words .tight ++ [.comment label]

def wordsAll : List Tree → List (List Word)
  | [] => []
  | t :: ts => t.words .argument :: wordsAll ts

end

theorem wordsAll_eq_map (ts : List Tree) : wordsAll ts = ts.map (words .argument) := by
  induction ts with
  | nil => rfl
  | cons t ts ih => rw [wordsAll, ih, List.map_cons]

end Tree

theorem spelling_cons (w : Word) (words : List Word) :
    spelling (w :: words) = w.text.toList ++ spelling words := rfl

theorem spelling_append (first second : List Word) :
    spelling (first ++ second) = spelling first ++ spelling second :=
  List.flatMap_append

theorem spelling_bracketUnless (bare : Bool) {words : List Word} {text : String}
    (h : text.toList = spelling words) :
    (Symbol.bracketUnless bare text).toList = spelling (bracketUnless bare words) := by
  cases bare with
  | true => exact h
  | false => simp [Symbol.bracketUnless, bracketUnless, spelling, h, Word.text]

theorem spelling_intercalate (rows : List (List Word)) :
    spelling ([.separator].intercalate rows) = [','].intercalate (rows.map spelling) := by
  match rows with
  | [] => rfl
  | [ws] => simp
  | ws :: vs :: rows =>
    have ih := spelling_intercalate (vs :: rows)
    rw [List.map_cons] at ih
    simp only [List.intercalate_cons_cons, List.map_cons, spelling_append, ih]
    rfl

namespace Tree

mutual

/-- A tree is written in its words. -/
theorem toList_write_draw (t : Tree) (place : Symbol.Place) :
    (t.draw.write place).toList = spelling (t.words place) := by
  cases t with
  | literal l =>
    cases l with
    | boolean b => simp [draw, Literal.value, Symbol.writing, Symbol.write, words, spelling,
        Word.text, Literal.text]
    | _ => simp [draw, Literal.value, Symbol.writing, Operand.ofInteger, Operand.ofDecimal,
        Operand.ofText, Operand.quoted, Symbol.write, words, spelling, Word.text, Literal.text]
  | reference r => simp [draw, Symbol.write, words, spelling, Word.text]
  | prefixed op operand =>
    have hoperand := operand.toList_write_draw (.operand op.precedence false)
    simp only [draw, Symbol.prefix1, Symbol.write, words]
    refine spelling_bracketUnless _ ?_
    rw [String.toList_append, hoperand, ← op.text_word]
    rfl
  | infixed op left right =>
    have hleft := left.toList_write_draw op.leftPlace
    have hright := right.toList_write_draw op.rightPlace
    have htext : ∀ text : String, text = left.draw.write op.leftPlace ++ op.symbol ++
        right.draw.write op.rightPlace →
          text.toList =
            spelling (left.words op.leftPlace ++ op.word :: right.words op.rightPlace) := by
      rintro _ rfl
      rw [String.toList_append, String.toList_append, hleft, hright, ← op.text_word,
        List.append_assoc, spelling_append]
      rfl
    rw [words]
    cases op with
    | _ => exact spelling_bracketUnless _ (htext _ rfl)
  | call f arguments =>
    have harguments := toList_writeArguments_draw arguments
    have htext : (Symbol.call f.name (drawAll arguments)).toList =
        spelling (words place (call f arguments)) := by
      rw [words, spelling_cons, spelling_cons, spelling_append, spelling_intercalate, ← harguments]
      simp only [Symbol.call, String.toList_append, String.toList_intercalate, List.append_assoc]
      rfl
    rw [← htext, draw]
    cases f with
    | many f => cases f <;> simp [Callee.absorbing?, Symbol.write, Symbol.call, Callee.name,
        VariadicFunction.name]
    | _ => rfl
  | annotated subject label =>
    have hsubject := subject.toList_write_draw .tight
    simp [draw, Symbol.write, words, hsubject, spelling, Word.text]

theorem toList_writeArguments_draw (ts : List Tree) :
    (Symbol.writeArguments (drawAll ts)).map String.toList = (wordsAll ts).map spelling := by
  cases ts with
  | nil => rfl
  | cons t ts =>
    have ht := t.toList_write_draw .argument
    have hts := toList_writeArguments_draw ts
    simp only [drawAll, Symbol.writeArguments, wordsAll, List.map_cons, ht, hts]

end

end Tree

def Code.word? : Code → Option Word
  | literal l => some (.literal l)
  | reference r => some (.reference r)
  | sign (.before op) => some op.word
  | sign (.between op) => some op.word
  | callee f => some (.callee f)
  | arity _ => none
  | comment label => some (.comment label)

section

variable {P : Word → Prop} (separator : P .separator) (opening : P .opening) (closing : P .closing)

include opening closing in
theorem forall_bracketUnless (bare : Bool) {words : List Word} (h : ∀ w ∈ words, P w) :
    ∀ w ∈ bracketUnless bare words, P w := by
  cases bare with
  | true => exact h
  | false =>
    refine List.forall_mem_cons.2 ⟨opening, fun w hw => ?_⟩
    rcases List.mem_append.1 hw with hw | hw
    · exact h w hw
    · obtain rfl := List.mem_singleton.1 hw
      exact closing

include separator

theorem forall_intercalate {rows : List (List Word)} (h : ∀ ws ∈ rows, ∀ w ∈ ws, P w) :
    ∀ w ∈ [Word.separator].intercalate rows, P w := by
  match rows with
  | [] => nofun
  | [ws] => simpa using h
  | ws :: vs :: rows =>
    have hrest := forall_intercalate fun us hus => h us (List.mem_cons_of_mem ws hus)
    intro w hw
    rw [List.intercalate_cons_cons] at hw
    rcases List.mem_append.1 hw with hw | hw
    · rcases List.mem_append.1 hw with hw | hw
      · exact h ws (by simp) w hw
      · obtain rfl := List.mem_singleton.1 hw
        exact separator
    · exact hrest w hw

include opening closing

/-- The words of a tree are those of its code, and brackets and separators. -/
theorem Tree.forall_words (t : Tree) (h : ∀ c ∈ t.code, ∀ w, c.word? = some w → P w)
    (place : Symbol.Place) : ∀ w ∈ t.words place, P w := by
  cases t with
  | literal l =>
    intro w hw
    obtain rfl := List.mem_singleton.1 hw
    exact h (.literal l) (by simp [code]) _ rfl
  | reference r =>
    intro w hw
    obtain rfl := List.mem_singleton.1 hw
    exact h (.reference r) (by simp [code]) _ rfl
  | prefixed op operand =>
    have hoperand := operand.forall_words fun c hc => h c (by simp [code, hc])
    refine forall_bracketUnless opening closing _ (List.forall_mem_cons.2 ⟨?_, hoperand _⟩)
    exact h (.sign (.before op)) (by simp [code]) _ rfl
  | infixed op left right =>
    have hleft := left.forall_words fun c hc => h c (by simp [code, hc])
    have hright := right.forall_words fun c hc => h c (by simp [code, hc])
    refine forall_bracketUnless opening closing _ (List.forall_mem_append.2 ⟨hleft _, ?_⟩)
    refine List.forall_mem_cons.2 ⟨?_, hright _⟩
    exact h (.sign (.between op)) (by simp [code]) _ rfl
  | call f arguments =>
    have harguments : ∀ ws ∈ wordsAll arguments, ∀ w ∈ ws, P w := by
      intro ws hws
      rw [wordsAll_eq_map] at hws
      obtain ⟨t, ht, rfl⟩ := List.mem_map.1 hws
      refine t.forall_words (fun c hc => h c ?_) _
      rw [code, codeAll_eq_flatMap]
      exact List.mem_append_left _ (List.mem_flatMap.2 ⟨t, ht, hc⟩)
    refine List.forall_mem_cons.2 ⟨h (.callee f) (by simp [code]) _ rfl, ?_⟩
    exact forall_bracketUnless opening closing false (forall_intercalate separator harguments)
  | annotated subject label =>
    have hsubject := subject.forall_words fun c hc => h c (by simp [code, hc])
    refine List.forall_mem_append.2 ⟨hsubject _, List.forall_mem_singleton.2 ?_⟩
    exact h (.comment label) (by simp [code]) _ rfl

end

end FormulaEngine
