import FormulaEngine.Grammar.Postfix

/-!
# Emission

The reordering of tokens splits at any place: a run of tokens completes some instructions and leaves
some work pending, and what follows it depends on the run only through that pending work and its
last token.
-/
namespace FormulaEngine

variable {V : Type}

/-- The token that the next one comes after, once `tokens` came after `previous`. -/
def lastToken (previous : Option (Token V)) (tokens : List (Token V)) : Option (Token V) :=
  tokens.getLast?.or previous

@[simp] theorem lastToken_nil (previous : Option (Token V)) :
    lastToken previous [] = previous := rfl

@[simp] theorem lastToken_cons (previous : Option (Token V)) (token : Token V)
    (tokens : List (Token V)) :
    lastToken previous (token :: tokens) = lastToken (some token) tokens := by
  cases tokens with
  | nil => rfl
  | cons t ts => simp [lastToken, List.getLast?_cons]

@[simp] theorem lastToken_append (previous : Option (Token V)) (first second : List (Token V)) :
    lastToken previous (first ++ second) = lastToken (lastToken previous first) second := by
  simp only [lastToken, List.getLast?_append, Option.or_assoc]

/-- What a run of tokens completes, and what is pending after it. -/
def emitAll (listOperator : Option (Operator V)) (previous : Option (Token V))
    (pending : List (Pending V)) : List (Token V) → Emission V
  | [] => ([], pending)
  | token :: tokens =>
    let now := emit listOperator previous pending token
    let later := emitAll listOperator (some token) now.2 tokens
    (now.1 ++ later.1, later.2)

variable {listOperator : Option (Operator V)}

theorem emitAll_append (previous : Option (Token V)) (pending : List (Pending V))
    (first second : List (Token V)) :
    emitAll listOperator previous pending (first ++ second) =
      let now := emitAll listOperator previous pending first
      let later := emitAll listOperator (lastToken previous first) now.2 second
      (now.1 ++ later.1, later.2) := by
  induction first generalizing previous pending with
  | nil => simp [emitAll]
  | cons token tokens ih => simp [emitAll, ih, List.append_assoc]

theorem emitAll_cons_eq {previous : Option (Token V)} {pending waiting rest : List (Pending V)}
    {token : Token V} {tokens : List (Token V)} {code more : List (Instruction V)}
    (now : emit listOperator previous pending token = (code, waiting))
    (later : emitAll listOperator (some token) waiting tokens = (more, rest)) :
    emitAll listOperator previous pending (token :: tokens) = (code ++ more, rest) := by
  simp only [emitAll, now, later]

theorem emitAll_singleton_eq {previous : Option (Token V)} {pending rest : List (Pending V)}
    {token : Token V} {code : List (Instruction V)}
    (now : emit listOperator previous pending token = (code, rest)) :
    emitAll listOperator previous pending [token] = (code, rest) := by
  simp only [emitAll, now, List.append_nil]

theorem emitAll_append_eq {previous : Option (Token V)} {pending waiting rest : List (Pending V)}
    {first second : List (Token V)} {code more : List (Instruction V)}
    (now : emitAll listOperator previous pending first = (code, waiting))
    (later : emitAll listOperator (lastToken previous first) waiting second = (more, rest)) :
    emitAll listOperator previous pending (first ++ second) = (code ++ more, rest) := by
  simp only [emitAll_append, now, later]

theorem postfixFrom_append (previous : Option (Token V)) (pending : List (Pending V))
    (first second : List (Token V)) :
    postfixFrom listOperator previous pending (first ++ second) =
      (emitAll listOperator previous pending first).1 ++
        postfixFrom listOperator (lastToken previous first)
          (emitAll listOperator previous pending first).2 second := by
  induction first generalizing previous pending with
  | nil => simp [emitAll]
  | cons token tokens ih => simp [emitAll, postfixFrom, ih, List.append_assoc]

theorem postfixFrom_eq_emitAll (previous : Option (Token V)) (pending : List (Pending V))
    (tokens : List (Token V)) :
    postfixFrom listOperator previous pending tokens =
      (emitAll listOperator previous pending tokens).1 ++
        completeAll (emitAll listOperator previous pending tokens).2 := by
  conv => lhs; rw [← List.append_nil tokens, postfixFrom_append, postfixFrom]

def pendingOperators (ops : List (Operator V)) : List (Pending V) := ops.map .operator

def operatorCode (ops : List (Operator V)) : List (Instruction V) := ops.map .operator

theorem completeAll_pendingOperators (ops : List (Operator V)) (pending : List (Pending V)) :
    completeAll (pendingOperators ops ++ pending) = operatorCode ops ++ completeAll pending := by
  induction ops with
  | nil => rfl
  | cons op ops ih => simpa [pendingOperators, operatorCode, completeAll] using ih

theorem completeInside_pendingOperators (ops : List (Operator V)) (pending : List (Pending V)) :
    completeInside (pendingOperators ops ++ pending) =
      (operatorCode ops ++ (completeInside pending).1, (completeInside pending).2) := by
  induction ops with
  | nil => simp [pendingOperators, operatorCode]
  | cons op ops ih =>
    simp only [pendingOperators, operatorCode, List.map_cons, List.cons_append,
      completeInside] at ih ⊢
    rw [ih]

@[simp] theorem insideCall_pendingOperators (ops : List (Operator V))
    (pending : List (Pending V)) :
    insideCall (pendingOperators ops ++ pending) = insideCall pending := by
  induction ops with
  | nil => rfl
  | cons op ops ih => simpa [pendingOperators, insideCall] using ih

/-- No operator is on top of what is pending, or one that `op` does not yield to. -/
def holdsAgainst (op : Operator V) : List (Pending V) → Prop
  | .operator top :: _ => op.yieldsTo top = false
  | _ => True

theorem completeBefore_pendingOperators {op : Operator V} {ops : List (Operator V)}
    {pending : List (Pending V)} (yields : ∀ top ∈ ops, op.yieldsTo top = true)
    (holds : holdsAgainst op pending) :
    completeBefore op (pendingOperators ops ++ pending) = (operatorCode ops, pending) := by
  induction ops with
  | nil =>
    simp only [pendingOperators, List.map_nil, List.nil_append, operatorCode]
    cases pending with
    | nil => rfl
    | cons p pending =>
      cases p with
      | operator top =>
        have hop : op.yieldsTo top = false := holds
        simp [completeBefore, hop]
      | function f => rfl
      | call f n => rfl
      | group => rfl
  | cons top ops ih =>
    have hop : op.yieldsTo top = true := yields top (by simp)
    have hrest := ih fun t ht => yields t (by simp [ht])
    simp only [pendingOperators, operatorCode, List.map_cons, List.cons_append,
      completeBefore, hop, if_true] at hrest ⊢
    rw [hrest]

end FormulaEngine
