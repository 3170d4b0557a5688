import FormulaEngine.Proofs.Layout
import Mathlib.Data.List.Chain

/-!
# Phrases

What is written for a tree is a phrase: words that begin operands and words that continue them take
turns. Hardly any two words of a phrase can run together.
-/
namespace FormulaEngine

open Formula

namespace Word

def begins : Word → Bool
  | literal _ => true
  | reference _ => true
  | sign s => s.isPrefix
  | minus => true
  | callee _ => true
  | opening => true
  | _ => false

def ends : Word → Bool
  | literal _ => true
  | reference _ => true
  | comment _ => true
  | closing => true
  | _ => false

def continues : Word → Bool
  | sign s => !s.isPrefix
  | minus => true
  | comment _ => true
  | closing => true
  | separator => true
  | _ => false

def allows (w v : Word) : Bool :=
  if w.ends then v.continues
  else
    match w with
    | callee _ => v == opening
    | opening => v.begins || v == closing
    | _ => v.begins

end Word

/-- Words that can be an operand. -/
structure Phrase (words : List Word) : Prop where
  chain : words.IsChain fun w v => w.allows v = true
  begins : ∃ w, words.head? = some w ∧ w.begins = true
  ends : ∃ w, words.getLast? = some w ∧ w.ends = true

namespace Phrase

variable {words more : List Word}

theorem singleton {w : Word} (begins : w.begins = true) (ends : w.ends = true) : Phrase [w] :=
  ⟨.singleton w, ⟨w, rfl, begins⟩, ⟨w, rfl, ends⟩⟩

theorem ne_nil (h : Phrase words) : words ≠ [] := by
  obtain ⟨w, hw, _⟩ := h.begins
  rintro rfl
  cases hw

theorem chain_cons {w : Word} (h : Phrase words)
    (allows : ∀ v, v.begins = true → w.allows v = true) :
    (w :: words).IsChain fun w v => w.allows v = true := by
  obtain ⟨first, hfirst, hbegins⟩ := h.begins
  refine List.isChain_cons.2 ⟨fun v hv => ?_, h.chain⟩
  obtain rfl : v = first := Option.some.inj (hv.symm.trans hfirst)
  exact allows v hbegins

theorem chain_append (h : Phrase words)
    (chain : more.IsChain fun w v => w.allows v = true)
    (continues : ∀ v ∈ more.head?, v.continues = true) :
    (words ++ more).IsChain fun w v => w.allows v = true := by
  obtain ⟨last, hlast, hends⟩ := h.ends
  refine h.chain.append chain fun w hw v hv => ?_
  obtain rfl : w = last := Option.some.inj (hw.symm.trans hlast)
  simpa only [Word.allows, hends, if_true] using continues v hv

theorem getLast?_cons {w : Word} (h : Phrase words) : (w :: words).getLast? = words.getLast? := by
  obtain ⟨last, hlast, _⟩ := h.ends
  rw [List.getLast?_cons, hlast]
  rfl

theorem prefixed (op : UnaryOperator) (h : Phrase words) : Phrase (op.word :: words) where
  chain := h.chain_cons fun v hv => by cases op <;> exact hv
  begins := ⟨op.word, rfl, by cases op <;> rfl⟩
  ends := by rw [h.getLast?_cons]; exact h.ends

theorem infixed (op : BinaryOperator) (h : Phrase words) (h' : Phrase more) :
    Phrase (words ++ op.word :: more) where
  chain := by
    refine h.chain_append (h'.chain_cons fun v hv => ?_) ?_
    · cases op <;> exact hv
    · rintro v ⟨⟩
      cases op <;> rfl
  begins := by
    rw [List.head?_append_of_ne_nil _ h.ne_nil]
    exact h.begins
  ends := by
    rw [List.getLast?_append_of_ne_nil _ (by simp), h'.getLast?_cons]
    exact h'.ends

theorem commented (label : String) (h : Phrase words) : Phrase (words ++ [.comment label]) where
  chain := h.chain_append (.singleton _) (by rintro v ⟨⟩; rfl)
  begins := by
    rw [List.head?_append_of_ne_nil _ h.ne_nil]
    exact h.begins
  ends := ⟨.comment label, by simp, rfl⟩

theorem bracketed (h : Phrase words) : Phrase (.opening :: (words ++ [.closing])) where
  chain := by
    have hclosed : (words ++ [Word.closing]).IsChain fun w v => w.allows v = true :=
      h.chain_append (.singleton _) (by rintro v ⟨⟩; rfl)
    obtain ⟨first, hfirst, hbegins⟩ := h.begins
    refine List.isChain_cons.2 ⟨fun v hv => ?_, hclosed⟩
    rw [List.head?_append_of_ne_nil _ h.ne_nil, hfirst] at hv
    cases hv
    simp [Word.allows, Word.ends, hbegins]
  begins := ⟨.opening, rfl, rfl⟩
  ends := ⟨.closing, by rw [← List.cons_append, List.getLast?_concat], rfl⟩

theorem bracketUnless (bare : Bool) (h : Phrase words) :
    Phrase (FormulaEngine.bracketUnless bare words) := by
  cases bare with
  | true => exact h
  | false => exact h.bracketed

theorem intercalate {row : List Word} {rows : List (List Word)}
    (h : ∀ ws ∈ row :: rows, Phrase ws) :
    Phrase ([.separator].intercalate (row :: rows)) := by
  induction rows generalizing row with
  | nil => simpa using h
  | cons next rows ih =>
    have hrow := h row (by simp)
    have hrest := ih fun ws hws => h ws (List.mem_cons_of_mem _ hws)
    simpa [BinaryOperator.word] using infixed .list hrow hrest

theorem called (f : Callee) {rows : List (List Word)} (h : ∀ ws ∈ rows, Phrase ws) :
    Phrase (.callee f :: .opening :: ([.separator].intercalate rows ++ [.closing])) := by
  have hbracketed : (Word.opening :: ([.separator].intercalate rows ++ [.closing])).IsChain
      fun w v => w.allows v = true := by
    cases rows with
    | nil => exact List.isChain_cons_cons.2 ⟨rfl, .singleton _⟩
    | cons row rows => exact (intercalate h).bracketed.chain
  exact ⟨List.isChain_cons_cons.2 ⟨rfl, hbracketed⟩, ⟨_, rfl, rfl⟩,
    ⟨.closing, by rw [← List.cons_append, ← List.cons_append, List.getLast?_concat], rfl⟩⟩

end Phrase

theorem Tree.phrase (t : Tree) (place : Symbol.Place) : Phrase (t.words place) := by
  cases t with
  | literal l => exact .singleton rfl rfl
  | reference r => exact .singleton rfl rfl
  | prefixed op operand => exact .bracketUnless _ (.prefixed op (operand.phrase _))
  | infixed op left right => exact .bracketUnless _ (.infixed op (left.phrase _) (right.phrase _))
  | call f arguments =>
    refine .called f fun ws hws => ?_
    rw [wordsAll_eq_map] at hws
    obtain ⟨t, ht, rfl⟩ := List.mem_map.1 hws
    exact t.phrase _
  | annotated subject label => exact .commented label (subject.phrase _)

/-- The code has the text of a word, and it is none of the signs that folding takes away. -/
def Code.IsShown (c : Code) : Prop :=
  (∀ w, c.source? = some w → w.WellSpelled) ∧
    ∀ op, c = .sign (.between op) → op.absorbing? = none

def Word.IsShown (w : Word) : Prop :=
  w.WellSpelled ∧ ∀ op, w = .sign (.between op) → op.absorbing? = none

theorem isShown_of_wellSpelled {w : Word} (h : w.WellSpelled)
    (noSign : ∀ op, w ≠ .sign (.between op)) : w.IsShown :=
  ⟨h, fun op hop => absurd hop (noSign op)⟩

theorem isShown_word {op : BinaryOperator} (h : op.absorbing? = none) : op.word.IsShown := by
  cases op with
  | both => cases h
  | either => cases h
  | list => exact ⟨trivial, nofun⟩
  | subtract => exact ⟨trivial, nofun⟩
  | _ => exact ⟨by simp [BinaryOperator.word, Word.WellSpelled, Entry.signs], by rintro _ ⟨⟩; rfl⟩

theorem Tree.isShown_words (t : Tree) (h : ∀ c ∈ t.code, c.IsShown) (place : Symbol.Place) :
    ∀ w ∈ t.words place, w.IsShown := by
  refine t.forall_words (isShown_of_wellSpelled trivial (by simp))
    (isShown_of_wellSpelled trivial (by simp)) (isShown_of_wellSpelled trivial (by simp))
    (fun c hc w hw => ?_) place
  cases c with
  | sign s =>
    cases s with
    | before op =>
      cases hw
      refine isShown_of_wellSpelled ?_ (by cases op <;> simp [UnaryOperator.word])
      cases op <;> simp [UnaryOperator.word, Word.WellSpelled, Entry.signs]
    | between op =>
      cases hw
      exact isShown_word ((h _ hc).2 op rfl)
  | callee f =>
    cases hw
    exact isShown_of_wellSpelled trivial (by simp)
  | arity n => cases hw
  | _ =>
    cases hw
    exact isShown_of_wellSpelled ((h _ hc).1 _ rfl) (by simp)

/-- A key without a delimiter takes up the sign after it. -/
def Word.runsInto : Word → Word → Bool
  | reference r, sign (.between op) => r.closing == "" && (op == .multiply || op == .dice)
  | _, _ => false

theorem isChain_of_delimited {words : List Word}
    (h : ∀ r, .reference r ∈ words → r.closing ≠ "") :
    words.IsChain fun w v => w.runsInto v = false := by
  induction words with
  | nil => exact .nil
  | cons w words ih =>
    refine List.isChain_cons.2 ⟨fun v _ => ?_, ih fun r hr => h r (List.mem_cons_of_mem w hr)⟩
    cases w with
    | reference r =>
      have hclosing : (r.closing == "") = false := beq_false_of_ne (h r List.mem_cons_self)
      cases v with
      | sign s => cases s <;> simp [Word.runsInto, hclosing]
      | _ => rfl
    | _ => rfl

namespace Word

theorem avoids_text {v : Word} (hv : v.WellSpelled) {excluded : List Char}
    (h : Avoids v.text.toList excluded) (rest : List Char) :
    Avoids (v.text.toList ++ rest) excluded := by
  rwa [Avoids, List.head?_append_of_ne_nil _ (text_ne_nil hv)]

def firsts : Word → List Char
  | literal (.integer _) => Fragment.digitChars
  | literal (.decimal _) => Fragment.digitChars
  | literal (.quoted _ _) => ['"', '\'']
  | reference _ => ['@']
  | comment _ => ['[']
  | w => w.text.toList.take 1

theorem mem_firsts {v : Word} (hv : v.WellSpelled) : ∀ c ∈ v.text.toList.head?, c ∈ v.firsts := by
  have htake : ∀ cs : List Char, ∀ c ∈ cs.head?, c ∈ cs.take 1 := by
    intro cs c hc
    cases cs with
    | nil => cases hc
    | cons d cs => cases hc; exact List.mem_cons_self
  intro c hc
  cases v with
  | literal l =>
    cases l with
    | integer text => exact hv.2.2 c (List.mem_of_mem_head? hc)
    | decimal text =>
      obtain ⟨whole, fraction, htext, hwhole, _⟩ := hv
      rw [Word.text, Literal.text, htext, List.head?_append_of_ne_nil _ hwhole.1] at hc
      exact hwhole.2.2 c (List.mem_of_mem_head? hc)
    | quoted mark text =>
      rw [Word.text, Literal.text, String.append_assoc, String.toList_append] at hc
      obtain ⟨rfl, _⟩ | ⟨rfl, _⟩ := hv
      · cases hc
        exact List.mem_cons_self
      · cases hc
        exact List.mem_cons_of_mem _ List.mem_cons_self
    | boolean b => exact htake _ c hc
    | null => exact htake _ c hc
  | reference r =>
    rw [Word.text, String.append_assoc, String.toList_append] at hc
    obtain ⟨hopening, _⟩ | ⟨hopening, _⟩ := hv
    all_goals
      rw [hopening] at hc
      cases hc
      exact List.mem_cons_self
  | comment label =>
    rw [Word.text, String.append_assoc, String.toList_append] at hc
    cases hc
    exact List.mem_cons_self
  | _ => exact htake _ c hc

/-- The characters that a word can continue an operand with. -/
def continuations : List Char := ['^', '*', '/', '+', '-', 'd', '<', '>', '=', '!', '[', ')', ',']

theorem firsts_of_continues {v : Word} (hv : v.IsShown) (continues : v.continues = true) :
    v.firsts.all (fun c => decide (c ∈ continuations)) = true := by
  cases v with
  | sign s =>
    cases s with
    | before op => cases continues
    | between op =>
      have hop := hv.2 op rfl
      cases op <;> first | decide | cases hop
  | minus => decide
  | closing => decide
  | separator => decide
  | comment label => rfl
  | _ => cases continues

theorem firsts_of_begins {v : Word} (begins : v.begins = true) :
    v.firsts.all (fun c => decide (c ∉ ['='])) = true := by
  cases v with
  | literal l =>
    cases l with
    | boolean b => cases b <;> decide
    | null => decide
    | _ => rfl
  | reference r => rfl
  | sign s =>
    cases s with
    | before op => cases op <;> decide
    | between op => cases begins
  | callee f =>
    cases f with
    | one f => cases f <;> decide
    | three f => cases f <;> decide
    | many f => cases f <;> decide
  | minus => decide
  | opening => decide
  | _ => cases begins

theorem firsts_shown (v : Word) :
    v.firsts.all (fun c => !Text.isBlank c && (c != '(' || v == opening)) = true := by
  cases v with
  | literal l =>
    cases l with
    | boolean b => cases b <;> decide
    | null => decide
    | _ => rfl
  | reference r => rfl
  | sign s =>
    cases s with
    | before op => cases op <;> decide
    | between op => cases op <;> decide
  | callee f =>
    cases f with
    | one f => cases f <;> decide
    | three f => cases f <;> decide
    | many f => cases f <;> decide
  | comment label => rfl
  | _ => decide

theorem of_mem_firsts {v : Word} {c : Char} (h : c ∈ v.firsts) :
    Text.isBlank c = false ∧ (c = '(' → v = opening) := by
  have hshown := List.all_eq_true.1 (firsts_shown v) c h
  simp only [Bool.and_eq_true, Bool.not_eq_true', Bool.or_eq_true, bne_iff_ne, ne_eq,
    beq_iff_eq] at hshown
  exact ⟨hshown.1, fun hc => hshown.2.resolve_left (not_not_intro hc)⟩

theorem avoids_of_begins {v : Word} (hv : v.WellSpelled) (begins : v.begins = true) :
    Avoids v.text.toList ['='] :=
  fun c hc => of_decide_eq_true
    (List.all_eq_true.1 (firsts_of_begins begins) c (mem_firsts hv c hc))

theorem avoids_of_continues {v : Word} (hv : v.IsShown) (continues : v.continues = true)
    {excluded : List Char} (h : ∀ c ∈ continuations, c ∉ excluded) :
    Avoids v.text.toList excluded :=
  fun c hc => h c (of_decide_eq_true
    (List.all_eq_true.1 (firsts_of_continues hv continues) c (mem_firsts hv.1 c hc)))

/-- A key that no brace closes is followed by a sign that it does not take up, by a comment, or by
what ends an operand. -/
theorem avoids_keyChars {r : Reference} (hclosing : r.closing = "") {v : Word} (hv : v.IsShown)
    (allows : (reference r).allows v = true) (apart : (reference r).runsInto v = false) :
    Avoids v.text.toList Fragment.keyChars := by
  cases v with
  | sign s =>
    cases s with
    | before op => cases allows
    | between op =>
      have hop := hv.2 op rfl
      cases op with
      | both => cases hop
      | either => cases hop
      | multiply => simp [runsInto, hclosing] at apart
      | dice => simp [runsInto, hclosing] at apart
      | _ => decide
  | comment label =>
    intro c hc
    rw [text, String.append_assoc, String.toList_append] at hc
    cases hc
    decide
  | minus => decide
  | closing => decide
  | separator => decide
  | _ => cases allows

/-- A word does not go on in the next word of a phrase, but for a key. -/
theorem avoids_of_allows {w v : Word} (hv : v.IsShown) (allows : w.allows v = true)
    (apart : w.runsInto v = false) : Avoids v.text.toList w.excludes := by
  have hnumbers : continuations.all (fun c => decide (c ∉ '.' :: Fragment.digitChars)) = true := by
    decide
  have hnumber : ∀ c ∈ continuations, c ∉ '.' :: Fragment.digitChars :=
    fun c hc => of_decide_eq_true (List.all_eq_true.mp hnumbers c hc)
  cases w with
  | literal l =>
    cases l with
    | integer text => exact avoids_of_continues hv allows hnumber
    | decimal text =>
      exact avoids_of_continues hv allows
        fun c hc hdigit => hnumber c hc (List.mem_cons_of_mem _ hdigit)
    | _ => exact avoids_of_continues hv allows (by simp [excludes])
  | reference r =>
    by_cases hclosing : r.closing = ""
    · simp only [excludes, hclosing, if_true]
      exact avoids_keyChars hclosing hv allows apart
    · simp [excludes, hclosing, Avoids]
  | sign s =>
    cases s with
    | before op =>
      cases op with
      | negate => simp [excludes, Avoids]
      | not => exact avoids_of_begins hv.1 allows
    | between op =>
      cases op with
      | below => exact avoids_of_begins hv.1 allows
      | above => exact avoids_of_begins hv.1 allows
      | _ => simp [excludes, Avoids]
  | callee f =>
    obtain rfl : v = opening := by simpa [Word.allows, ends] using allows
    cases f with
    | many f => cases f <;> decide
    | _ => simp [excludes, Avoids]
  | _ => simp [excludes, Avoids]

end Word

theorem spaced_of_chain {words : List Word} (shown : ∀ w ∈ words, w.IsShown)
    (chain : words.IsChain fun w v => w.allows v = true)
    (apart : words.IsChain fun w v => w.runsInto v = false) : Spaced words := by
  induction words with
  | nil => trivial
  | cons w words ih =>
    have hspaced := ih (fun v hv => shown v (by simp [hv])) chain.tail apart.tail
    refine ⟨?_, hspaced⟩
    cases words with
    | nil => exact avoids_end _
    | cons v words =>
      have hv : v.IsShown := shown v (by simp)
      have havoids := Word.avoids_of_allows hv (List.isChain_cons_cons.1 chain).1
        (List.isChain_cons_cons.1 apart).1
      rw [spelling_cons]
      exact Word.avoids_text hv.1 havoids _

end FormulaEngine
