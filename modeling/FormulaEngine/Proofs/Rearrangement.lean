import FormulaEngine.Proofs.Expression
import FormulaEngine.Proofs.Inlining

/-!
# The rearrangement of tokens

Every token stands for an item of its own or for nothing, whether or not the brackets match, and
the instructions are those of all items. What is pending stands for items too; which ones these are
depends on the tokens that follow, because a call is completed only where its bracket is closed and
with as many arguments as there are until then.
-/
namespace FormulaEngine

variable {V : Type} {listOperator : Option (Operator V)}

/-- What a token stands for, once its place among the others is known. -/
inductive Item (V : Type) where
  | term (v : V)
  | reference (r : Reference)
  | comment (label : String)
  | operator (op : Operator V)
  /-- A function that is not followed by a bracket. -/
  | function (f : FunctionSymbol V)
  | call (f : FunctionSymbol V) (arguments : Nat)

namespace Item

def code : Item V → List (Instruction V)
  | term v => [.term v]
  | reference r => [.reference r]
  | comment label => [.comment label]
  | operator op => [.operator op]
  | function f => [.function f]
  | call f arguments => callCode f arguments

def staysInPlace : Item V → Bool
  | term _ => true
  | reference _ => true
  | comment _ => true
  | _ => false

end Item

/-- How many separators are directly inside a bracket before it is closed, if it ever is; `depth`
more brackets inside of it are open before the tokens. -/
def separatorsInside : (depth : Nat) → List (Token V) → Option Nat
  | _, [] => none
  | 0, .closing :: _ => some 0
  | depth + 1, .closing :: tokens => separatorsInside depth tokens
  | depth, .opening :: tokens => separatorsInside (depth + 1) tokens
  | 0, .separator :: tokens => (separatorsInside 0 tokens).map (· + 1)
  | depth, _ :: tokens => separatorsInside depth tokens

def argumentCount? : List (Token V) → Option Nat
  | .closing :: _ => some 0
  | tokens => (separatorsInside 0 tokens).map (· + 1)

/-- What a function stands for before `later`: a call of it if a bracket is opened there, which is
nothing if that bracket is never closed. -/
def Item.ofFunction? (f : FunctionSymbol V) (later : List (Token V)) : Option (Item V) :=
  match later with
  | .opening :: tokens => (argumentCount? tokens).map (.call f)
  | _ => some (.function f)

theorem Item.ofFunction?_cases (f : FunctionSymbol V) (later : List (Token V)) :
    (later.head? ≠ some .opening ∧ ofFunction? f later = some (.function f)) ∨
      ∃ tokens, later = .opening :: tokens ∧
        ofFunction? f later = (argumentCount? tokens).map (.call f) := by
  cases later with
  | nil => exact .inl ⟨nofun, rfl⟩
  | cons token tokens =>
    cases token with
    | opening => exact .inr ⟨tokens, rfl, rfl⟩
    | _ => exact .inl ⟨nofun, rfl⟩

namespace Token

def opensCall : Option (Token V) → Bool
  | some (function _) => true
  | _ => false

/-- The brackets that are open after a token, the innermost first: whether each opens a call. -/
def bracketsAfter (previous : Option (Token V)) (brackets : List Bool) : Token V → List Bool
  | opening => opensCall previous :: brackets
  | closing => brackets.tail
  | _ => brackets

/-- The operator that a sign stands for: the one before an operand at the start and after an
operator, an opening bracket or a separator, the one between operands elsewhere. -/
def chosen (unary binary : Operator V) : Option (Token V) → Operator V
  | none => unary
  | some (operator _) => unary
  | some (twoWay _ _) => unary
  | some opening => unary
  | some separator => unary
  | some _ => binary

theorem chosen_eq (unary binary : Operator V) (previous : Option (Token V)) :
    chosen unary binary previous = if startsOperand previous then unary else binary := by
  cases previous with
  | none => rfl
  | some token => cases token <;> rfl

def item? (listOperator : Option (Operator V)) (previous : Option (Token V))
    (brackets : List Bool) (later : List (Token V)) : Token V → Option (Item V)
  | term v => some (.term v)
  | reference r => some (.reference r)
  | comment label => some (.comment label)
  | operator op => some (.operator op)
  | twoWay unary binary => some (.operator (chosen unary binary previous))
  | function f => Item.ofFunction? f later
  | separator => if brackets.head? == some true then none else listOperator.map .operator
  | opening => none
  | closing => none

end Token

def itemsFrom (listOperator : Option (Operator V)) (previous : Option (Token V))
    (brackets : List Bool) : List (Token V) → List (Item V)
  | [] => []
  | token :: tokens =>
    (token.item? listOperator previous brackets tokens).toList ++
      itemsFrom listOperator (some token) (token.bracketsAfter previous brackets) tokens

/-- The same items, where those that stay in place are in the same order. -/
structure Rearranges (items items' : List (Item V)) : Prop where
  perm : items.Perm items'
  inPlace : items.filter Item.staysInPlace = items'.filter Item.staysInPlace

namespace Rearranges

variable {items items' items'' more more' : List (Item V)}

theorem refl (items : List (Item V)) : Rearranges items items := ⟨.refl _, rfl⟩

theorem trans (first : Rearranges items items') (second : Rearranges items' items'') :
    Rearranges items items'' :=
  ⟨first.perm.trans second.perm, first.inPlace.trans second.inPlace⟩

theorem append (first : Rearranges items items') (second : Rearranges more more') :
    Rearranges (items ++ more) (items' ++ more') where
  perm := first.perm.append second.perm
  inPlace := by rw [List.filter_append, List.filter_append, first.inPlace, second.inPlace]

theorem swap (moves : ∀ i ∈ items, i.staysInPlace = false) (more : List (Item V)) :
    Rearranges (items ++ more) (more ++ items) where
  perm := List.perm_append_comm
  inPlace := by
    have hnone : items.filter Item.staysInPlace = [] :=
      List.filter_eq_nil_iff.2 fun i hi => by simp [moves i hi]
    rw [List.filter_append, List.filter_append, hnone, List.nil_append, List.append_nil]

theorem cons_swap {i : Item V} (moves : i.staysInPlace = false) (more : List (Item V)) :
    Rearranges (i :: more) (more ++ [i]) := by
  have moves : ∀ j ∈ [i], j.staysInPlace = false := by simpa using moves
  exact swap moves more

end Rearranges

/-- What is pending comes to, below `depth` brackets that are open above it. -/
def dueBelow : (depth : Nat) → List (Pending V) → List (Token V) → List (Item V)
  | _, [], _ => []
  | depth, .operator op :: rest, tokens => .operator op :: dueBelow depth rest tokens
  | depth, .function f :: rest, tokens => .function f :: dueBelow depth rest tokens
  | depth, .group :: rest, tokens => dueBelow (depth + 1) rest tokens
  | depth, .call f n :: rest, tokens =>
    ((separatorsInside depth tokens).map fun k => .call f (n + k)).toList ++
      dueBelow (depth + 1) rest tokens

/-- What is pending after `previous` comes to. A name on top of it is called by an opening bracket,
and a bracket on top of it that is closed at once has no arguments. -/
def due (previous : Option (Token V)) (pending : List (Pending V)) (tokens : List (Token V)) :
    List (Item V) :=
  match previous, pending, tokens with
  | some (.function f), _ :: rest, .opening :: later =>
    ((argumentCount? later).map (.call f)).toList ++ dueBelow 1 rest later
  | some .opening, .call f _ :: rest, .closing :: later => .call f 0 :: dueBelow 0 rest later
  | _, pending, tokens => dueBelow 0 pending tokens

theorem dueBelow_moves (depth : Nat) (pending : List (Pending V)) (tokens : List (Token V)) :
    ∀ i ∈ dueBelow depth pending tokens, i.staysInPlace = false := by
  induction pending generalizing depth with
  | nil => exact nofun
  | cons p rest ih =>
    cases p with
    | operator op => simpa [dueBelow, Item.staysInPlace] using ih depth
    | function f => simpa [dueBelow, Item.staysInPlace] using ih depth
    | group => exact ih (depth + 1)
    | call f n =>
      intro i hi
      rcases List.mem_append.1 hi with hi | hi
      · obtain ⟨k, _, rfl⟩ := Option.map_eq_some_iff.1 (Option.mem_toList.1 hi)
        rfl
      · exact ih (depth + 1) i hi

theorem dueBelow_opening (depth : Nat) (pending : List (Pending V)) (tokens : List (Token V)) :
    dueBelow depth pending (.opening :: tokens) = dueBelow (depth + 1) pending tokens := by
  induction pending generalizing depth with
  | nil => rfl
  | cons p rest ih => cases p <;> simp [dueBelow, ih, separatorsInside]

theorem dueBelow_closing (depth : Nat) (pending : List (Pending V)) (tokens : List (Token V)) :
    dueBelow (depth + 1) pending (.closing :: tokens) = dueBelow depth pending tokens := by
  induction pending generalizing depth with
  | nil => rfl
  | cons p rest ih => cases p <;> simp [dueBelow, ih, separatorsInside]

theorem dueBelow_separator (depth : Nat) (pending : List (Pending V)) (tokens : List (Token V)) :
    dueBelow (depth + 1) pending (.separator :: tokens) = dueBelow (depth + 1) pending tokens := by
  induction pending generalizing depth with
  | nil => rfl
  | cons p rest ih => cases p <;> simp [dueBelow, ih, separatorsInside]

def Token.isPlain : Token V → Bool
  | opening => false
  | closing => false
  | separator => false
  | _ => true

theorem dueBelow_plain {token : Token V} (plain : token.isPlain) (depth : Nat)
    (pending : List (Pending V)) (tokens : List (Token V)) :
    dueBelow depth pending (token :: tokens) = dueBelow depth pending tokens := by
  have skip : ∀ depth,
      separatorsInside depth (token :: tokens) = separatorsInside depth tokens := by
    intro depth
    cases token <;> first | (cases depth <;> rfl) | cases plain
  induction pending generalizing depth with
  | nil => rfl
  | cons p rest ih => cases p <;> simp [dueBelow, ih, skip]

theorem dueBelow_separator_of_not_insideCall {pending : List (Pending V)}
    (outside : insideCall pending = false) (tokens : List (Token V)) :
    dueBelow 0 pending (.separator :: tokens) = dueBelow 0 pending tokens := by
  induction pending with
  | nil => rfl
  | cons p rest ih =>
    cases p with
    | operator op => rw [dueBelow, dueBelow, ih outside]
    | function f => rw [dueBelow, dueBelow, ih outside]
    | group => exact dueBelow_separator 0 rest tokens
    | call f n => cases outside

theorem due_cons {token : Token V} (notOpening : token ≠ .opening) (notClosing : token ≠ .closing)
    (previous : Option (Token V)) (pending : List (Pending V)) (tokens : List (Token V)) :
    due previous pending (token :: tokens) = dueBelow 0 pending (token :: tokens) := by
  unfold due
  split
  · rename_i heq
    cases heq
    exact absurd rfl notOpening
  · rename_i heq
    cases heq
    exact absurd rfl notClosing
  · rfl

theorem due_plain {token : Token V} (plain : token.isPlain) (previous : Option (Token V))
    (pending : List (Pending V)) (tokens : List (Token V)) :
    due previous pending (token :: tokens) = dueBelow 0 pending tokens := by
  have notOpening : token ≠ .opening := by
    rintro rfl
    cases plain
  have notClosing : token ≠ .closing := by
    rintro rfl
    cases plain
  rw [due_cons notOpening notClosing, dueBelow_plain plain]

/-- Complete items of operators and functions, and what is left pending below them. -/
structure Completes (emission : Emission V) (items : List (Item V)) (pending : List (Pending V)) :
    Prop where
  code_eq : emission.1 = items.flatMap Item.code
  moves : ∀ i ∈ items, i.staysInPlace = false
  due_eq : ∀ tokens, dueBelow 0 pending tokens = items ++ dueBelow 0 emission.2 tokens

theorem exists_completes_before (op : Operator V) (pending : List (Pending V)) :
    ∃ items, Completes (completeBefore op pending) items pending := by
  induction pending with
  | nil => exact ⟨[], rfl, nofun, fun _ => rfl⟩
  | cons p rest ih =>
    cases p with
    | operator top =>
      rw [completeBefore]
      split
      · obtain ⟨items, hcode, hmoves, hdue⟩ := ih
        refine ⟨.operator top :: items, ?_, ?_, fun tokens => ?_⟩
        · rw [List.flatMap_cons, ← hcode]
          rfl
        · simpa [Item.staysInPlace] using hmoves
        · rw [dueBelow, hdue tokens]
          rfl
      · exact ⟨[], rfl, nofun, fun _ => rfl⟩
    | _ => exact ⟨[], rfl, nofun, fun _ => rfl⟩

theorem exists_completes_inside (pending : List (Pending V)) :
    ∃ items, Completes (completeInside pending) items pending := by
  induction pending with
  | nil => exact ⟨[], rfl, nofun, fun _ => rfl⟩
  | cons p rest ih =>
    obtain ⟨items, hcode, hmoves, hdue⟩ := ih
    cases p with
    | operator op =>
      refine ⟨.operator op :: items, ?_, ?_, fun tokens => ?_⟩
      · rw [List.flatMap_cons, ← hcode]
        rfl
      · simpa [Item.staysInPlace] using hmoves
      · rw [dueBelow, hdue tokens]
        rfl
    | function f =>
      refine ⟨.function f :: items, ?_, ?_, fun tokens => ?_⟩
      · rw [List.flatMap_cons, ← hcode]
        rfl
      · simpa [Item.staysInPlace] using hmoves
      · rw [dueBelow, hdue tokens]
        rfl
    | _ => exact ⟨[], rfl, nofun, fun _ => rfl⟩

theorem completeInside_cases (pending : List (Pending V)) :
    (completeInside pending).2 = [] ∨ (∃ rest, (completeInside pending).2 = .group :: rest) ∨
      ∃ f n rest, (completeInside pending).2 = .call f n :: rest := by
  induction pending with
  | nil => exact .inl rfl
  | cons p rest ih =>
    cases p with
    | operator op => exact ih
    | function f => exact ih
    | group => exact .inr (.inl ⟨rest, rfl⟩)
    | call f n => exact .inr (.inr ⟨f, n, rest, rfl⟩)

theorem exists_rearranges_pendOperator (op : Operator V) (pending : List (Pending V)) :
    ∃ items : List (Item V), (pendOperator op pending).1 = items.flatMap Item.code ∧
      ∀ tokens, Rearranges (items ++ dueBelow 0 (pendOperator op pending).2 tokens)
        (dueBelow 0 pending tokens ++ [.operator op]) := by
  have later : ∀ items : List (Item V),
      Rearranges (.operator op :: items) (items ++ [.operator op]) := Rearranges.cons_swap rfl
  unfold pendOperator
  split
  · exact ⟨[], rfl, fun tokens => later _⟩
  · obtain ⟨items, hcode, hmoves, hdue⟩ := exists_completes_before op pending
    refine ⟨items, hcode, fun tokens => ?_⟩
    rw [hdue tokens, List.append_assoc]
    exact (Rearranges.refl items).append (later _)

/-- The brackets that are open in what is pending, the innermost first: whether each opens a
call. -/
def openCalls (pending : List (Pending V)) : List Bool :=
  pending.filterMap fun
    | .call _ _ => some true
    | .group => some false
    | _ => none

theorem insideCall_eq (pending : List (Pending V)) :
    insideCall pending = ((openCalls pending).head? == some true) := by
  induction pending with
  | nil => rfl
  | cons p rest ih => cases p <;> simp_all [insideCall, openCalls]

theorem openCalls_completeBefore (op : Operator V) (pending : List (Pending V)) :
    openCalls (completeBefore op pending).2 = openCalls pending := by
  induction pending with
  | nil => rfl
  | cons p rest ih =>
    cases p with
    | operator top =>
      rw [completeBefore]
      split
      · exact ih
      · rfl
    | _ => rfl

theorem openCalls_pendOperator (op : Operator V) (pending : List (Pending V)) :
    openCalls (pendOperator op pending).2 = openCalls pending := by
  unfold pendOperator
  split
  · rfl
  · exact openCalls_completeBefore op pending

theorem openCalls_completeInside (pending : List (Pending V)) :
    openCalls (completeInside pending).2 = openCalls pending := by
  induction pending with
  | nil => rfl
  | cons p rest ih =>
    cases p with
    | operator op => exact ih
    | function f => exact ih
    | _ => rfl

theorem openCalls_separate (pending : List (Pending V)) :
    openCalls (separate listOperator pending).2 = openCalls pending := by
  unfold separate
  split
  · exact openCalls_pendOperator _ pending
  · have h := openCalls_completeInside pending
    rcases completeInside_cases pending with hrest | ⟨rest, hrest⟩ | ⟨f, n, rest, hrest⟩ <;>
      simpa [hrest, openCalls] using h

theorem openCalls_closeBracket (previous : Option (Token V)) (pending : List (Pending V)) :
    openCalls (closeBracket previous pending).2 = (openCalls pending).tail := by
  rw [← openCalls_completeInside pending, closeBracket]
  rcases completeInside_cases pending with hrest | ⟨rest, hrest⟩ | ⟨f, n, rest, hrest⟩ <;>
    simp [hrest, openCalls]

theorem openCalls_openBracket {previous : Option (Token V)} {pending : List (Pending V)}
    (named : NamePending previous pending) :
    openCalls (openBracket previous pending).2 =
      Token.opensCall previous :: openCalls pending := by
  cases previous with
  | none => rfl
  | some token =>
    cases token with
    | function f =>
      obtain ⟨rest, rfl⟩ := named f rfl
      rfl
    | _ => rfl

theorem openCalls_emit {previous : Option (Token V)} {pending : List (Pending V)}
    (named : NamePending previous pending) (token : Token V) :
    openCalls (emit listOperator previous pending token).2 =
      token.bracketsAfter previous (openCalls pending) := by
  cases token with
  | operator op => exact openCalls_pendOperator op pending
  | twoWay unary binary => exact openCalls_pendOperator _ pending
  | opening => exact openCalls_openBracket named
  | closing => exact openCalls_closeBracket previous pending
  | separator => exact openCalls_separate pending
  | _ => rfl

def BracketPending (previous : Option (Token V)) (pending : List (Pending V)) : Prop :=
  previous = some .opening → ∃ p rest, pending = p :: rest ∧ p.isBracket = true

theorem bracketPending_emit (previous : Option (Token V)) (pending : List (Pending V))
    (token : Token V) :
    BracketPending (some token) (emit listOperator previous pending token).2 := by
  intro h
  cases h
  change ∃ p rest, (openBracket previous pending).2 = p :: rest ∧ p.isBracket = true
  unfold openBracket
  split
  · exact ⟨_, _, rfl, rfl⟩
  · exact ⟨_, _, rfl, rfl⟩

/-- A token stands for its item: what it completes and what is due after it is what was due before
it and the item. -/
structure Settles (listOperator : Option (Operator V)) (previous : Option (Token V))
    (pending : List (Pending V)) (token : Token V) (tokens : List (Token V))
    (items : List (Item V)) : Prop where
  code_eq : (emit listOperator previous pending token).1 = items.flatMap Item.code
  rearranges :
    Rearranges (items ++ due (some token) (emit listOperator previous pending token).2 tokens)
      (due previous pending (token :: tokens) ++
        (token.item? listOperator previous (openCalls pending) tokens).toList)

theorem due_called (f : FunctionSymbol V) (rest : List (Pending V)) (tokens : List (Token V)) :
    due (some .opening) (.call f 1 :: rest) tokens =
      ((argumentCount? tokens).map (.call f)).toList ++ dueBelow 1 rest tokens := by
  have counted : dueBelow 0 (.call f 1 :: rest) tokens =
      (((separatorsInside 0 tokens).map (· + 1)).map (.call f)).toList ++
        dueBelow 1 rest tokens := by
    rw [dueBelow, Option.map_map]
    congr 3
    funext k
    exact congrArg (Item.call f) (Nat.add_comm 1 k)
  cases tokens with
  | nil => exact counted
  | cons token tokens =>
    cases token with
    | closing =>
      rw [dueBelow_closing]
      rfl
    | _ => exact counted

theorem settles_of_due {previous : Option (Token V)} {pending : List (Pending V)} {token : Token V}
    {tokens : List (Token V)} {items : List (Item V)}
    (code : (emit listOperator previous pending token).1 = items.flatMap Item.code)
    (same : items ++ due (some token) (emit listOperator previous pending token).2 tokens =
      due previous pending (token :: tokens) ++
        (token.item? listOperator previous (openCalls pending) tokens).toList) :
    Settles listOperator previous pending token tokens items :=
  ⟨code, same ▸ .refl _⟩

theorem due_opening {previous : Option (Token V)} (uncalled : Token.opensCall previous = false)
    (pending : List (Pending V)) (tokens : List (Token V)) :
    due previous pending (.opening :: tokens) = dueBelow 0 pending (.opening :: tokens) := by
  unfold due
  split
  · cases uncalled
  · rename_i heq
    cases heq
  · rfl

theorem due_closing {previous : Option (Token V)} (notOpening : previous ≠ some .opening)
    (pending : List (Pending V)) (tokens : List (Token V)) :
    due previous pending (.closing :: tokens) = dueBelow 0 pending (.closing :: tokens) := by
  unfold due
  split
  · rename_i heq
    cases heq
  · exact absurd rfl notOpening
  · rfl

theorem settles_opening {previous : Option (Token V)} {pending : List (Pending V)}
    (named : NamePending previous pending) (tokens : List (Token V)) :
    Settles listOperator previous pending .opening tokens [] := by
  have grouped : Token.opensCall previous = false →
      openBracket previous pending = ([], .group :: pending) →
      Settles listOperator previous pending .opening tokens [] := by
    intro uncalled hopen
    refine settles_of_due (congrArg Prod.fst hopen) ?_
    rw [emit, hopen, due_opening uncalled, dueBelow_opening]
    exact (List.append_nil _).symm
  cases previous with
  | none => exact grouped rfl rfl
  | some token =>
    cases token with
    | function f =>
      obtain ⟨rest, rfl⟩ := named f rfl
      refine settles_of_due rfl ?_
      exact (due_called f rest tokens).trans (List.append_nil _).symm
    | _ => exact grouped rfl rfl

theorem closeBracket_call {previous : Option (Token V)} (notOpening : previous ≠ some .opening)
    {pending rest : List (Pending V)} {f : FunctionSymbol V} {n : Nat}
    (inside : (completeInside pending).2 = .call f n :: rest) :
    closeBracket previous pending = ((completeInside pending).1 ++ callCode f n, rest) := by
  simp only [closeBracket, inside, callCode, List.append_assoc]

theorem settles_closing {previous : Option (Token V)} {pending : List (Pending V)}
    (opened : BracketPending previous pending) (tokens : List (Token V)) :
    ∃ items, Settles listOperator previous pending .closing tokens items := by
  by_cases hprevious : previous = some .opening
  · obtain ⟨p, rest, rfl, hp⟩ := opened hprevious
    subst hprevious
    cases p with
    | operator op => cases hp
    | function f => cases hp
    | group =>
      refine ⟨[], settles_of_due rfl ?_⟩
      exact (dueBelow_closing 0 rest tokens).symm.trans (List.append_nil _).symm
    | call f n =>
      refine ⟨[.call f 0], settles_of_due ?_ (List.append_nil _).symm⟩
      simp [emit, closeBracket, completeInside, Item.code, callCode]
  · obtain ⟨items, hcode, -, hdue⟩ := exists_completes_inside pending
    have hbefore := (due_closing hprevious pending tokens).trans (hdue _)
    rcases completeInside_cases pending with hrest | ⟨rest, hrest⟩ | ⟨f, n, rest, hrest⟩
    · have hclose : closeBracket previous pending = ((completeInside pending).1, []) := by
        simp only [closeBracket, hrest]
      refine ⟨items, settles_of_due ?_ ?_⟩
      · rw [emit, hclose, hcode]
      · rw [emit, hclose, hbefore, hrest]
        exact (List.append_nil _).symm
    · have hclose : closeBracket previous pending = ((completeInside pending).1, rest) := by
        simp only [closeBracket, hrest]
      refine ⟨items, settles_of_due ?_ ?_⟩
      · rw [emit, hclose, hcode]
      · rw [emit, hclose, hbefore, hrest, dueBelow, dueBelow_closing]
        exact (List.append_nil _).symm
    · have hclose := closeBracket_call hprevious hrest
      refine ⟨items ++ [.call f n], settles_of_due ?_ ?_⟩
      · rw [emit, hclose, hcode, List.flatMap_append]
        simp [Item.code]
      · rw [emit, hclose, hbefore, hrest, dueBelow, dueBelow_closing, List.append_assoc]
        exact (List.append_nil _).symm

theorem settles_function (previous : Option (Token V)) (pending : List (Pending V))
    (f : FunctionSymbol V) (tokens : List (Token V)) :
    Settles listOperator previous pending (.function f) tokens [] where
  code_eq := rfl
  rearranges := by
    rw [due_plain rfl]
    have alone : Rearranges (.function f :: dueBelow 0 pending tokens)
        (dueBelow 0 pending tokens ++ [.function f]) :=
      .cons_swap rfl _
    cases tokens with
    | nil => exact alone
    | cons token tokens =>
      cases token with
      | opening =>
        rw [dueBelow_opening]
        have moves : ∀ i ∈ ((argumentCount? tokens).map (Item.call f)).toList,
            i.staysInPlace = false := by
          cases argumentCount? tokens <;> simp [Item.staysInPlace]
        exact .swap moves _
      | _ => exact alone

theorem settles_operator {previous : Option (Token V)} {pending : List (Pending V)}
    {token : Token V} {tokens : List (Token V)} {op : Operator V}
    (pends : emit listOperator previous pending token = pendOperator op pending)
    (after : ∀ rest, due (some token) rest tokens = dueBelow 0 rest tokens)
    (before : due previous pending (token :: tokens) = dueBelow 0 pending tokens)
    (item : token.item? listOperator previous (openCalls pending) tokens = some (.operator op)) :
    ∃ items, Settles listOperator previous pending token tokens items := by
  obtain ⟨items, hcode, hmoves⟩ := exists_rearranges_pendOperator op pending
  refine ⟨items, ?_, ?_⟩
  · rw [pends, hcode]
  · rw [pends, after, before, item]
    exact hmoves tokens

theorem due_separator (previous : Option (Token V)) (pending : List (Pending V))
    (tokens : List (Token V)) :
    due previous pending (.separator :: tokens) = dueBelow 0 pending (.separator :: tokens) :=
  due_cons (by simp) (by simp) _ _ _

theorem settles_separator_inside {pending : List (Pending V)} (inside : insideCall pending = true)
    (previous : Option (Token V)) (tokens : List (Token V)) :
    ∃ items, Settles listOperator previous pending .separator tokens items := by
  obtain ⟨items, hcode, -, hdue⟩ := exists_completes_inside pending
  have hitem : (Token.separator : Token V).item? listOperator previous (openCalls pending) tokens =
      none := by
    rw [Token.item?, ← insideCall_eq, inside]
    rfl
  have hcalls := (insideCall_eq pending).symm.trans inside
  rw [← openCalls_completeInside] at hcalls
  rcases completeInside_cases pending with hrest | ⟨rest, hrest⟩ | ⟨f, n, rest, hrest⟩
  · simp [hrest, openCalls] at hcalls
  · simp [hrest, openCalls] at hcalls
  · have hseparate : separate listOperator pending =
        ((completeInside pending).1, .call f (n + 1) :: rest) := by
      simp only [separate, inside, hrest]
    have hcounted : dueBelow 0 (.call f n :: rest) (.separator :: tokens) =
        dueBelow 0 (.call f (n + 1) :: rest) tokens := by
      rw [dueBelow, dueBelow, separatorsInside, Option.map_map, dueBelow_separator]
      congr 3
      funext k
      have hcount : n + (k + 1) = n + 1 + k := by omega
      exact congrArg (Item.call f) hcount
    refine ⟨items, settles_of_due ?_ ?_⟩
    · rw [emit, hseparate, hcode]
    · rw [emit, hseparate, due_separator, hdue, hrest, hcounted, hitem]
      exact (List.append_nil _).symm

theorem settles_separator_outside {pending : List (Pending V)}
    (outside : insideCall pending = false) (previous : Option (Token V)) (tokens : List (Token V)) :
    ∃ items, Settles listOperator previous pending .separator tokens items := by
  have hbefore := due_separator previous pending tokens
  rw [dueBelow_separator_of_not_insideCall outside] at hbefore
  have hitem : (Token.separator : Token V).item? listOperator previous (openCalls pending) tokens =
      listOperator.map .operator := by
    rw [Token.item?, ← insideCall_eq, outside]
    rfl
  cases listOperator with
  | some op =>
    have hseparate : separate (some op) pending = pendOperator op pending := by
      simp only [separate, outside]
    exact settles_operator hseparate (fun _ => rfl) hbefore hitem
  | none =>
    obtain ⟨items, hcode, -, hdue⟩ := exists_completes_inside pending
    have hcalls := (insideCall_eq pending).symm.trans outside
    rw [← openCalls_completeInside] at hcalls
    have hseparate : separate none pending = completeInside pending := by
      unfold separate
      split
      · rename_i heq
        cases heq
      · rcases completeInside_cases pending with hrest | ⟨rest, hrest⟩ | ⟨f, n, rest, hrest⟩
        · simp only [hrest]
          exact Prod.ext rfl hrest.symm
        · simp only [hrest]
          exact Prod.ext rfl hrest.symm
        · simp [hrest, openCalls] at hcalls
    refine ⟨items, settles_of_due ?_ ?_⟩
    · rw [emit, hseparate, hcode]
    · rw [emit, hseparate, hbefore, hdue, hitem]
      exact (List.append_nil _).symm

theorem settles_inPlace {previous : Option (Token V)} {pending : List (Pending V)} {token : Token V}
    {tokens : List (Token V)} {item : Item V} (stands : token.item? listOperator previous
      (openCalls pending) tokens = some item)
    (emits : emit listOperator previous pending token = (item.code, pending))
    (after : due (some token) pending tokens = dueBelow 0 pending tokens)
    (before : due previous pending (token :: tokens) = dueBelow 0 pending tokens) :
    Settles listOperator previous pending token tokens [item] where
  code_eq := by simp [emits]
  rearranges := by
    rw [stands, emits, after, before]
    have moves := dueBelow_moves 0 pending tokens
    exact ⟨List.perm_append_comm, ((Rearranges.swap moves [item]).inPlace).symm⟩

variable (listOperator) in
/-- The step: every token settles one item at most. -/
theorem exists_settles {previous : Option (Token V)} {pending : List (Pending V)}
    (named : NamePending previous pending) (opened : BracketPending previous pending)
    (token : Token V) (tokens : List (Token V)) :
    ∃ items, Settles listOperator previous pending token tokens items := by
  cases token with
  | term v => exact ⟨_, settles_inPlace rfl rfl rfl (due_plain rfl _ _ _)⟩
  | reference r => exact ⟨_, settles_inPlace rfl rfl rfl (due_plain rfl _ _ _)⟩
  | comment label => exact ⟨_, settles_inPlace rfl rfl rfl (due_plain rfl _ _ _)⟩
  | operator op => exact settles_operator rfl (fun _ => rfl) (due_plain rfl _ _ _) rfl
  | twoWay unary binary =>
    have hitem := Token.chosen_eq unary binary previous
    exact settles_operator rfl (fun _ => rfl) (due_plain rfl _ _ _) (by rw [Token.item?, hitem])
  | function f => exact ⟨[], settles_function previous pending f tokens⟩
  | opening => exact ⟨[], settles_opening named tokens⟩
  | closing => exact settles_closing opened tokens
  | separator =>
    cases inside : insideCall pending with
    | true => exact settles_separator_inside inside previous tokens
    | false => exact settles_separator_outside inside previous tokens

theorem completeAll_eq (depth : Nat) (pending : List (Pending V)) :
    completeAll pending = (dueBelow depth pending []).flatMap Item.code := by
  induction pending generalizing depth with
  | nil => rfl
  | cons p rest ih =>
    cases p with
    | operator op => rw [completeAll, dueBelow, List.flatMap_cons, ih depth]; rfl
    | function f => rw [completeAll, dueBelow, List.flatMap_cons, ih depth]; rfl
    | group => exact ih (depth + 1)
    | call f n => cases depth <;> exact ih _

variable (listOperator) in
/-- The run: the instructions are those of all items that are due or that the tokens stand for. -/
theorem exists_rearranges_postfixFrom {previous : Option (Token V)} {pending : List (Pending V)}
    (named : NamePending previous pending) (opened : BracketPending previous pending)
    (tokens : List (Token V)) :
    ∃ items : List (Item V), postfixFrom listOperator previous pending tokens =
        items.flatMap Item.code ∧
      Rearranges items (due previous pending tokens ++
        itemsFrom listOperator previous (openCalls pending) tokens) := by
  induction tokens generalizing previous pending with
  | nil =>
    refine ⟨dueBelow 0 pending [], completeAll_eq 0 pending, ?_⟩
    have hdue : due previous pending [] = dueBelow 0 pending [] := by
      unfold due
      split <;> first | rfl | contradiction
    rw [hdue, itemsFrom, List.append_nil]
    exact .refl _
  | cons token tokens ih =>
    obtain ⟨first, hcode, hfirst⟩ := exists_settles listOperator named opened token tokens
    have hnamed : NamePending (some token) (emit listOperator previous pending token).2 :=
      namePending_emit previous pending token
    obtain ⟨later, hlater, hrest⟩ := ih hnamed (bracketPending_emit previous pending token)
    refine ⟨first ++ later, ?_, ?_⟩
    · change (emit listOperator previous pending token).1 ++ postfixFrom listOperator (some token)
        (emit listOperator previous pending token).2 tokens = _
      rw [hcode, hlater, List.flatMap_append]
    · rw [openCalls_emit named] at hrest
      have hboth := (Rearranges.refl first).append hrest
      rw [← List.append_assoc] at hboth
      rw [itemsFrom, ← List.append_assoc]
      exact hboth.trans (hfirst.append (.refl _))

variable (listOperator) in
theorem exists_rearranges_toPostfix (tokens : List (Token V)) :
    ∃ items : List (Item V), toPostfix listOperator tokens = items.flatMap Item.code ∧
      Rearranges items (itemsFrom listOperator none [] tokens) := by
  have named : NamePending none ([] : List (Pending V)) := nofun
  exact exists_rearranges_postfixFrom listOperator named nofun tokens

def Instruction.staysInPlace : Instruction V → Bool
  | term _ => true
  | reference _ => true
  | comment _ => true
  | _ => false

def Instruction.isOperation : Instruction V → Bool
  | operator _ => true
  | function _ => true
  | _ => false

def Token.inPlace? : Token V → Option (Instruction V)
  | term v => some (.term v)
  | reference r => some (.reference r)
  | comment label => some (.comment label)
  | _ => none

def Item.operation? : Item V → Option (Instruction V)
  | operator op => some (.operator op)
  | function f => some (.function f)
  | call f _ => some (.function f)
  | _ => none

theorem filter_isOperation_code (items : List (Item V)) :
    (items.flatMap Item.code).filter Instruction.isOperation = items.filterMap Item.operation? := by
  induction items with
  | nil => rfl
  | cons i items ih =>
    rw [List.flatMap_cons, List.filter_append, ih]
    cases i with
    | call f n =>
      rw [Item.code, callCode]
      cases f.operation.isVariadic <;> rfl
    | _ => rfl

theorem filter_staysInPlace_code (items : List (Item V)) :
    (items.flatMap Item.code).filter Instruction.staysInPlace =
      (items.filter Item.staysInPlace).flatMap Item.code := by
  induction items with
  | nil => rfl
  | cons i items ih =>
    rw [List.flatMap_cons, List.filter_append, ih]
    cases i with
    | call f n =>
      rw [Item.code, callCode]
      cases f.operation.isVariadic <;> rfl
    | _ => rfl

theorem inPlace_itemsFrom (previous : Option (Token V)) (brackets : List Bool)
    (tokens : List (Token V)) :
    ((itemsFrom listOperator previous brackets tokens).filter Item.staysInPlace).flatMap Item.code =
      tokens.filterMap Token.inPlace? := by
  induction tokens generalizing previous brackets with
  | nil => rfl
  | cons token tokens ih =>
    have here : (((token.item? listOperator previous brackets tokens).toList).filter
        Item.staysInPlace).flatMap Item.code = token.inPlace?.toList := by
      cases token with
      | function f =>
        rcases Item.ofFunction?_cases f tokens with ⟨-, hf⟩ | ⟨later, rfl, hf⟩
        · rw [Token.item?, hf]
          rfl
        · rw [Token.item?, hf]
          cases argumentCount? later <;> rfl
      | separator =>
        rw [Token.item?]
        cases brackets.head? == some true
        · cases listOperator <;> rfl
        · rfl
      | _ => rfl
    rw [itemsFrom, List.filter_append, List.flatMap_append, here, ih, List.filterMap_cons]
    cases token.inPlace? <;> rfl

variable (listOperator) in
/-- Nothing is lost and nothing comes twice, whether or not the brackets match: operands and
comments come in the order of reading, and the operators and functions are those that the tokens
stand for. -/
theorem toPostfix_conserves (tokens : List (Token V)) :
    (toPostfix listOperator tokens).filter Instruction.staysInPlace =
        tokens.filterMap Token.inPlace? ∧
      ((toPostfix listOperator tokens).filter Instruction.isOperation).Perm
        ((itemsFrom listOperator none [] tokens).filterMap Item.operation?) := by
  obtain ⟨items, hcode, hitems⟩ := exists_rearranges_toPostfix listOperator tokens
  constructor
  · rw [hcode, filter_staysInPlace_code, hitems.inPlace, inPlace_itemsFrom]
  · rw [hcode, filter_isOperation_code]
    exact hitems.perm.filterMap _

end FormulaEngine
