import FormulaEngine.Proofs.Descent

/-!
# What steps take

The runs of characters, the enclosed texts and the fixed spellings that the steps of a trie take,
and the steps that are taken where a text begins with one of them.
-/
namespace FormulaEngine

/-- A run of characters of a class that is taken at once. -/
def IsRun (allowed cs : List Char) : Prop :=
  cs ≠ [] ∧ cs.length ≤ Fragment.unbounded ∧ ∀ c ∈ cs, c ∈ allowed

instance (allowed cs : List Char) : Decidable (IsRun allowed cs) :=
  decidable_of_iff (cs ≠ [] ∧ cs.length ≤ Fragment.unbounded ∧ cs.all allowed.contains = true)
    (by simp [IsRun])

theorem Matcher.runLength_append_of_refused {m : Matcher} {rest : List Char}
    (refused : ∀ c ∈ rest.head?, m.accepts c = false) (max : Nat) (cs : List Char) :
    m.runLength max (cs ++ rest) = m.runLength max cs := by
  induction cs generalizing max with
  | nil =>
    cases max with
    | zero => rfl
    | succ max =>
      cases rest with
      | nil => rfl
      | cons c rest => simp [runLength, refused c rfl]
  | cons c cs ih =>
    cases max with
    | zero => rfl
    | succ max => simp [runLength, ih]

theorem Matcher.runLength_of_accepted {m : Matcher} {max : Nat} {cs : List Char}
    (short : cs.length ≤ max) (accepted : ∀ c ∈ cs, m.accepts c = true) :
    m.runLength max cs = cs.length := by
  induction cs generalizing max with
  | nil => cases max <;> rfl
  | cons c cs ih =>
    cases max with
    | zero => cases short
    | succ max =>
      have hrest := ih (Nat.le_of_succ_le_succ short) fun d hd => accepted d (by simp [hd])
      simp [runLength, accepted c (by simp), hrest]

theorem Matcher.runLength_append {m : Matcher} {max : Nat} {cs rest : List Char}
    (short : cs.length ≤ max) (accepted : ∀ c ∈ cs, m.accepts c = true)
    (stops : ∀ c ∈ rest.head?, m.accepts c = false) : m.runLength max (cs ++ rest) = cs.length := by
  rw [runLength_append_of_refused stops, runLength_of_accepted short accepted]

theorem Matcher.runLength_spec (m : Matcher) (max : Nat) (cs : List Char) :
    m.runLength max cs ≤ max ∧ m.runLength max cs ≤ cs.length ∧
      ∀ c ∈ cs.take (m.runLength max cs), m.accepts c = true := by
  induction cs generalizing max with
  | nil => cases max <;> simp [runLength]
  | cons c cs ih =>
    cases max with
    | zero => simp [runLength]
    | succ max =>
      obtain ⟨hmax, hlength, haccepted⟩ := ih max
      by_cases hc : m.accepts c = true
      · simp only [runLength, hc, if_true, List.length_cons, List.take_succ_cons]
        refine ⟨by omega, by omega, fun d hd => ?_⟩
        rcases List.mem_cons.1 hd with rfl | hd
        · exact hc
        · exact haccepted d hd
      · simp [runLength, hc]

def runOf (allowed : List Char) : Step := .run (.anyOf allowed) 1 Fragment.unbounded

theorem advance_runOf {allowed cs rest : List Char} (run : IsRun allowed cs)
    (avoids : Avoids rest allowed) (behind : List Char) :
    (runOf allowed).advance ⟨behind, cs ++ rest⟩ = .reached cs.length := by
  obtain ⟨hne, hshort, hallowed⟩ := run
  have hpos : 1 ≤ cs.length := List.length_pos_iff.2 hne
  have hlength : (Matcher.anyOf allowed).runLength Fragment.unbounded (cs ++ rest) = cs.length := by
    refine Matcher.runLength_append hshort (fun c hc => ?_) fun c hc => ?_
    · simpa [Matcher.accepts] using hallowed c hc
    · simpa [Matcher.accepts] using avoids c hc
  simp only [runOf, Step.advance, hlength]
  rw [if_neg (by omega)]

theorem isRun_of_advance {allowed : List Char} {c : Cursor} {n : Nat}
    (h : (runOf allowed).advance c = .reached n) : IsRun allowed (c.ahead.take n) := by
  obtain ⟨hmax, hlength, haccepted⟩ :=
    (Matcher.anyOf allowed).runLength_spec Fragment.unbounded c.ahead
  simp only [runOf, Step.advance] at h
  split at h
  · cases h
  · rename_i hmin
    cases h
    refine ⟨?_, ?_, fun d hd => ?_⟩
    · apply List.ne_nil_of_length_pos
      rw [List.length_take]
      omega
    · rw [List.length_take]
      omega
    · simpa [Matcher.accepts] using haccepted d hd

/-- The text, after this character, can stand before a closing delimiter: it has none of its own.
Where a backslash escapes delimiters, those after a backslash do not count. -/
def encloses (escaped : Bool) (close : Char) : (previous : Char) → List Char → Bool
  | previous, [] => !(escaped && previous == '\\')
  | previous, c :: cs =>
    !(c == close && !(escaped && previous == '\\')) && encloses escaped close c cs

def escapeFor (escaped : Bool) (close : Char) : Option (List Char) :=
  if escaped then some ['\\', close] else none

theorem isEscaped_close (escaped : Bool) (close previous : Char) (behind rest : List Char) :
    isEscaped ⟨previous :: behind, close :: rest⟩ (escapeFor escaped close) =
      (escaped && previous == '\\') := by
  cases escaped with
  | false => rfl
  | true =>
    have hcomm : ('\\' == previous) = (previous == '\\') := BEq.comm
    simp [escapeFor, isEscaped, List.isPrefixOf, hcomm]

theorem findClose_cons (escaped : Bool) (close previous c : Char) (behind cs : List Char) :
    findClose [close] (escapeFor escaped close) (previous :: behind) (c :: cs) =
      if c == close && !(escaped && previous == '\\') then some 0
      else
        (findClose [close] (escapeFor escaped close) (c :: previous :: behind) cs).map (· + 1) := by
  by_cases h : c = close
  · subst h
    simp [findClose, isEscaped_close]
  · simp [findClose, h, Ne.symm h]

theorem findClose_append {escaped : Bool} {close previous : Char} {cs : List Char}
    (h : encloses escaped close previous cs = true) (behind rest : List Char) :
    findClose [close] (escapeFor escaped close) (previous :: behind) (cs ++ close :: rest) =
      some cs.length := by
  induction cs generalizing previous behind with
  | nil =>
    have hopen : (escaped && previous == '\\') = false := by
      rwa [encloses, Bool.not_eq_true'] at h
    rw [List.nil_append, findClose_cons, hopen]
    simp
  | cons c cs ih =>
    obtain ⟨hc, hcs⟩ := (Bool.and_eq_true _ _).mp h
    have hopen : (c == close && !(escaped && previous == '\\')) = false := by
      rwa [Bool.not_eq_true'] at hc
    rw [List.cons_append, findClose_cons, hopen, ih hcs]
    rfl

theorem encloses_of_findClose {escaped : Bool} {close previous : Char} {behind cs : List Char}
    {n : Nat} (h : findClose [close] (escapeFor escaped close) (previous :: behind) cs = some n) :
    encloses escaped close previous (cs.take n) = true := by
  induction cs generalizing previous behind n with
  | nil => cases h
  | cons c cs ih =>
    rw [findClose_cons] at h
    split at h
    · rename_i hclose
      cases h
      obtain ⟨_, hopen⟩ := (Bool.and_eq_true _ _).mp hclose
      simpa [encloses] using hopen
    · rename_i hopen
      obtain ⟨k, hk, rfl⟩ := Option.map_eq_some_iff.1 h
      rw [List.take_succ_cons, encloses, ih hk, Bool.and_true, Bool.not_eq_true']
      exact Bool.eq_false_iff.2 hopen

theorem Cursor.advance_append (behind cs rest : List Char) :
    (Cursor.mk behind (cs ++ rest)).advance cs.length = ⟨cs.reverse ++ behind, rest⟩ := by
  simp [Cursor.advance_eq]

theorem findClose_le {close : List Char} {escape : Option (List Char)} {behind cs : List Char}
    {n : Nat} (h : findClose close escape behind cs = some n) : n ≤ cs.length := by
  induction cs generalizing behind n with
  | nil => cases h
  | cons c cs ih =>
    rw [findClose] at h
    split at h
    · cases h
      exact Nat.zero_le _
    · obtain ⟨k, hk, rfl⟩ := Option.map_eq_some_iff.1 h
      exact Nat.succ_le_succ (ih hk)

theorem Step.le_of_advance {s : Step} {c : Cursor} {n : Nat} (h : s.advance c = .reached n) :
    n ≤ c.ahead.length := by
  obtain ⟨behind, ahead⟩ := c
  cases s with
  | root =>
    cases h
    exact Nat.zero_le _
  | one m =>
    cases ahead with
    | nil => cases h
    | cons x ahead =>
      simp only [advance] at h
      split at h
      · cases h
        exact Nat.succ_le_succ (Nat.zero_le _)
      · cases h
  | run m min max =>
    have hlength := (m.runLength_spec max ahead).2.1
    simp only [advance] at h
    split at h
    · cases h
    · cases h
      exact hlength
  | stopAt close escape =>
    simp only [advance] at h
    split at h
    · rename_i k hk
      cases h
      exact findClose_le hk
    · cases h

theorem Step.le_of_exhausted {s : Step} {c : Cursor} {n : Nat} (h : s.advance c = .exhausted n) :
    n ≤ c.ahead.length := by
  cases s with
  | root => cases h
  | one m =>
    simp only [advance] at h
    split at h
    · split at h <;> cases h
    · cases h
  | run m min max =>
    simp only [advance] at h
    split at h <;> cases h
  | stopAt close escape =>
    simp only [advance] at h
    split at h
    · cases h
    · cases h
      exact Nat.le_refl _

namespace Steps

theorem le_length_ahead {steps : List Step} {c : Cursor} {n : Nat} (h : Steps steps c n) :
    n ≤ c.ahead.length := by
  induction h with
  | nil => exact Nat.zero_le _
  | exhausted here => exact Step.le_of_exhausted here
  | more here _ ih =>
    have hfirst := Step.le_of_advance here
    rw [Cursor.advance_eq, List.length_drop] at ih
    omega

variable {s : Step} {steps : List Step} {behind ahead : List Char} {n : Nat}

theorem not_of_blocked {c : Cursor} (here : s.advance c = .blocked) :
    ¬Steps (s :: steps) c n := by
  intro h
  cases h with
  | exhausted here' => exact Advance.noConfusion (here.symm.trans here')
  | more here' _ => exact Advance.noConfusion (here.symm.trans here')

theorem reached_iff {c : Cursor} {k : Nat} (here : s.advance c = .reached k) :
    Steps (s :: steps) c n ↔ ∃ m, n = k + m ∧ Steps steps (c.advance k) m := by
  constructor
  · intro h
    cases h with
    | exhausted here' => exact Advance.noConfusion (here.symm.trans here')
    | more here' rest =>
      cases here.symm.trans here'
      exact ⟨_, rfl, rest⟩
  · rintro ⟨m, rfl, rest⟩
    exact .more here rest

theorem exhausted_iff {c : Cursor} {k : Nat} (here : s.advance c = .exhausted k) :
    Steps (s :: steps) c n ↔ steps = [] ∧ n = k := by
  constructor
  · intro h
    cases h with
    | exhausted here' =>
      cases here.symm.trans here'
      exact ⟨rfl, rfl⟩
    | more here' _ => exact Advance.noConfusion (here.symm.trans here')
  · rintro ⟨rfl, rfl⟩
    exact .exhausted here

theorem cons_inv (h : Steps (s :: steps) ⟨behind, ahead⟩ n)
    (alive : steps = [] → ∀ k, s.advance ⟨behind, ahead⟩ ≠ .exhausted k) :
    ∃ cs rest m, ahead = cs ++ rest ∧ n = cs.length + m ∧
      s.advance ⟨behind, ahead⟩ = .reached cs.length ∧
        Steps steps ⟨cs.reverse ++ behind, rest⟩ m := by
  cases h with
  | exhausted here => exact absurd here (alive rfl _)
  | @more _ _ k m _ here rest =>
    have hk : (ahead.take k).length = k := by
      rw [List.length_take]
      exact Nat.min_eq_left (Step.le_of_advance here)
    refine ⟨ahead.take k, ahead.drop k, m, (List.take_append_drop k _).symm, ?_, ?_, ?_⟩
    · rw [hk]
    · rw [hk, here]
    · rwa [Cursor.advance_eq] at rest

theorem root_inv (h : Steps (.root :: steps) ⟨behind, ahead⟩ n) :
    Steps steps ⟨behind, ahead⟩ n := by
  obtain ⟨cs, rest, m, rfl, rfl, hadvance, hrest⟩ := h.cons_inv fun _ _ => nofun
  cases cs with
  | nil => simpa using hrest
  | cons x cs => cases hadvance

theorem one_inv {m : Matcher} (h : Steps (.one m :: steps) ⟨behind, ahead⟩ n) :
    ∃ x rest k, ahead = x :: rest ∧ m.accepts x = true ∧ n = k + 1 ∧
      Steps steps ⟨x :: behind, rest⟩ k := by
  have alive : ∀ k, (Step.one m).advance ⟨behind, ahead⟩ ≠ .exhausted k := by
    intro k hk
    cases ahead with
    | nil => cases hk
    | cons x ahead =>
      simp only [Step.advance] at hk
      split at hk <;> cases hk
  obtain ⟨cs, rest, k, hahead, hn, hadvance, hrest⟩ := h.cons_inv fun _ => alive
  cases ahead with
  | nil => cases hadvance
  | cons x ahead =>
    simp only [Step.advance] at hadvance
    split at hadvance
    · rename_i hx
      obtain ⟨y, rfl⟩ : ∃ y, cs = [y] := by
        rw [Advance.reached.injEq] at hadvance
        exact List.length_eq_one_iff.1 hadvance.symm
      obtain ⟨rfl, rfl⟩ := List.cons.inj hahead
      exact ⟨x, ahead, k, rfl, hx, by rw [hn, Nat.add_comm]; rfl, hrest⟩
    · cases hadvance

theorem char_inv {x : Char} (h : Steps (.one (.char x) :: steps) ⟨behind, ahead⟩ n) :
    ∃ rest k, ahead = x :: rest ∧ n = k + 1 ∧ Steps steps ⟨x :: behind, rest⟩ k := by
  obtain ⟨y, rest, k, hahead, hy, hn, hrest⟩ := h.one_inv
  obtain rfl : x = y := by simpa [Matcher.accepts] using hy
  exact ⟨rest, k, hahead, hn, hrest⟩

theorem chars_inv {cs : List Char}
    (h : Steps (cs.map fun x => .one (.char x)) ⟨behind, ahead⟩ n) : ahead.take n = cs := by
  induction cs generalizing behind ahead n with
  | nil =>
    cases h
    rfl
  | cons x cs ih =>
    obtain ⟨rest, k, rfl, rfl, hrest⟩ := h.char_inv
    rw [List.take_succ_cons, ih hrest]

theorem runOf_inv {allowed : List Char} (h : Steps (runOf allowed :: steps) ⟨behind, ahead⟩ n) :
    ∃ cs rest k, ahead = cs ++ rest ∧ IsRun allowed cs ∧ n = cs.length + k ∧
      Steps steps ⟨cs.reverse ++ behind, rest⟩ k := by
  have alive : ∀ k, (runOf allowed).advance ⟨behind, ahead⟩ ≠ .exhausted k := by
    intro k hk
    simp only [runOf, Step.advance] at hk
    split at hk <;> cases hk
  obtain ⟨cs, rest, k, rfl, hn, hadvance, hrest⟩ := h.cons_inv fun _ => alive
  have hrun := isRun_of_advance hadvance
  rw [List.take_left] at hrun
  exact ⟨cs, rest, k, rfl, hrun, hn, hrest⟩

theorem enclosed_inv {escaped : Bool} {close previous : Char}
    (h : Steps [.stopAt [close] (escapeFor escaped close), .one (.char close)]
      ⟨previous :: behind, ahead⟩ n) :
    ∃ cs rest, ahead = cs ++ close :: rest ∧ n = cs.length + 1 ∧
      encloses escaped close previous cs = true := by
  obtain ⟨cs, _, _, rfl, rfl, hadvance, hrest⟩ := h.cons_inv nofun
  obtain ⟨rest, _, rfl, rfl, hend⟩ := hrest.char_inv
  cases hend
  refine ⟨cs, rest, rfl, rfl, ?_⟩
  simp only [Step.advance] at hadvance
  split at hadvance
  · rename_i k hk
    rw [Advance.reached.injEq] at hadvance
    have henclosed := encloses_of_findClose hk
    rwa [hadvance, List.take_left] at henclosed
  · cases hadvance

theorem isRun_take {allowed : List Char} (h : Steps [runOf allowed] ⟨behind, ahead⟩ n) :
    IsRun allowed (ahead.take n) := by
  obtain ⟨cs, rest, _, rfl, hrun, rfl, hend⟩ := h.runOf_inv
  cases hend
  simpa using hrun

theorem enclosed_take {escaped : Bool} {start close : Char}
    (h : Steps [.one (.char start), .stopAt [close] (escapeFor escaped close), .one (.char close)]
      ⟨behind, ahead⟩ n) :
    ∃ text, ahead.take n = [start] ++ (text ++ [close]) ∧
      encloses escaped close start text = true := by
  obtain ⟨_, _, rfl, rfl, henclosed⟩ := h.char_inv
  obtain ⟨text, rest, rfl, rfl, hencloses⟩ := henclosed.enclosed_inv
  exact ⟨text, by simp [List.take_length_add_append], hencloses⟩

end Steps

end FormulaEngine
