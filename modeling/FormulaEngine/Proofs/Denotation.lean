import FormulaEngine.Proofs.Steps

/-!
# What fragments reach

The places of a text that a fragment reaches from a place when it is read on its own, without a
trie: positions are counted from the start of the text, and every step is described by the
characters that stand at these positions.
-/
namespace FormulaEngine

/-- A position in a text, and whether anything may follow there. -/
inductive Place where
  | amid (position : Nat)
  /-- The closing delimiter of a step was missing, so that nothing may follow. -/
  | final (position : Nat)
  deriving DecidableEq

def Place.position : Place → Nat
  | amid p => p
  | final p => p

/-- The characters that end at the position, it included, spell `escape`. -/
def Escaped (text : List Char) (escape : Option (List Char)) (p : Nat) : Prop :=
  ∃ e, escape = some e ∧ e ≠ [] ∧ e.length ≤ p + 1 ∧ e <+: text.drop (p + 1 - e.length)

/-- The delimiter is spelled from a character of the text on, which does not complete `escape`. -/
def Closes (text close : List Char) (escape : Option (List Char)) (p : Nat) : Prop :=
  p < text.length ∧ close <+: text.drop p ∧ ¬Escaped text escape p

def Matcher.AcceptsAt (m : Matcher) (text : List Char) (p : Nat) : Prop :=
  ∃ x, text[p]? = some x ∧ m.accepts x = true

inductive Step.Takes (text : List Char) : Step → Nat → Place → Prop where
  | root {p : Nat} : Takes text .root p (.amid p)
  | one {m : Matcher} {p : Nat} (accepted : m.AcceptsAt text p) :
    Takes text (.one m) p (.amid (p + 1))
  | run {m : Matcher} {min max p n : Nat} (enough : min ≤ n) (bounded : n ≤ max)
    (accepted : ∀ i < n, m.AcceptsAt text (p + i))
    (longest : n = max ∨ ¬m.AcceptsAt text (p + n)) :
    Takes text (.run m min max) p (.amid (p + n))
  | closed {close : List Char} {escape : Option (List Char)} {p q : Nat} (after : p ≤ q)
    (closes : Closes text close escape q)
    (first : ∀ k, p ≤ k → k < q → ¬Closes text close escape k) :
    Takes text (.stopAt close escape) p (.amid q)
  | unclosed {close : List Char} {escape : Option (List Char)} {p : Nat}
    (never : ∀ k, p ≤ k → ¬Closes text close escape k) :
    Takes text (.stopAt close escape) p (.final text.length)

/-- A fragment that begins at the first place can end at the second one. -/
def Fragment.Takes (text : List Char) : Fragment → Place → Place → Prop
  | .step s, r, r' => ∃ p, r = .amid p ∧ s.Takes text p r'
  | .empty, r, r' => r' = r
  | .append first second, r, r' =>
    ∃ between, first.Takes text r between ∧ second.Takes text between r'
  | .optional body, r, r' => r' = r ∨ body.Takes text r r'

def Fragment.Reaches (f : Fragment) (text : List Char) (start finish : Nat) : Prop :=
  ∃ r, f.Takes text (.amid start) r ∧ r.position = finish

namespace Cursor

theorem drop_text (c : Cursor) (n : Nat) : c.text.drop (c.index + n) = c.ahead.drop n := by
  simp [text, index, List.drop_append]

theorem getElem?_text (c : Cursor) (n : Nat) : c.text[c.index + n]? = c.ahead[n]? := by
  rw [← List.head?_drop, drop_text, List.head?_drop]

theorem length_text (c : Cursor) : c.text.length = c.index + c.ahead.length := by
  simp [text, index]

theorem drop_text_sub {c : Cursor} {n : Nat} (h : n ≤ c.index) :
    c.text.drop (c.index - n) = (c.behind.take n).reverse ++ c.ahead := by
  have hn : c.behind.length - (c.behind.length - n) = n := Nat.sub_sub_self h
  rw [text, index, List.drop_append_of_le_length (by simp), List.drop_reverse, hn]

theorem index_advance {c : Cursor} {n : Nat} (h : n ≤ c.ahead.length) :
    (c.advance n).index = c.index + n := by
  simp only [advance_eq, index, List.length_append, List.length_reverse, List.length_take]
  omega

end Cursor

theorem Matcher.acceptsAt_iff (m : Matcher) (c : Cursor) (n : Nat) :
    m.AcceptsAt c.text (c.index + n) ↔ ∃ x, c.ahead[n]? = some x ∧ m.accepts x = true := by
  rw [AcceptsAt, Cursor.getElem?_text]

theorem Matcher.runLength_longest (m : Matcher) (max : Nat) (c : Cursor) :
    m.runLength max c.ahead ≤ max ∧
      (∀ i < m.runLength max c.ahead, m.AcceptsAt c.text (c.index + i)) ∧
      (m.runLength max c.ahead = max ∨
        ¬m.AcceptsAt c.text (c.index + m.runLength max c.ahead)) := by
  simp only [acceptsAt_iff]
  induction c.ahead generalizing max with
  | nil => cases max <;> simp [runLength]
  | cons x cs ih =>
    cases max with
    | zero => simp [runLength]
    | succ max =>
      obtain ⟨hle, haccepted, hlongest⟩ := ih max
      by_cases hx : m.accepts x = true
      · simp only [runLength, hx, if_true]
        refine ⟨by omega, fun i hi => ?_, by simpa using hlongest⟩
        cases i with
        | zero => exact ⟨x, rfl, hx⟩
        | succ i => simpa using haccepted i (by omega)
      · simp [runLength, hx]

theorem isEscaped_iff (c : Cursor) (escape : Option (List Char)) :
    isEscaped c escape = true ↔ Escaped c.text escape c.index := by
  match escape with
  | none => simp [isEscaped, Escaped]
  | some [] => simp [isEscaped, Escaped]
  | some (e :: escape) =>
    simp only [isEscaped, Escaped, Bool.and_eq_true, decide_eq_true_eq, List.isPrefixOf_iff_prefix,
      Option.some.injEq, exists_eq_left', List.length_cons, Nat.add_le_add_iff_right,
      Nat.add_sub_add_right, ne_eq, reduceCtorEq, not_false_eq_true, true_and]
    exact and_congr_right fun h => by rw [Cursor.drop_text_sub h]

theorem closes_iff (behind : List Char) (x : Char) (ahead close : List Char)
    (escape : Option (List Char)) :
    Closes (behind.reverse ++ x :: ahead) close escape behind.length ↔
      (close.isPrefixOf (x :: ahead) && !isEscaped ⟨behind, x :: ahead⟩ escape) = true := by
  have hescaped := isEscaped_iff ⟨behind, x :: ahead⟩ escape
  simp only [Cursor.text, Cursor.index] at hescaped
  simp [Closes, ← hescaped]

theorem findClose_spec (close : List Char) (escape : Option (List Char))
    (behind ahead : List Char) :
    match findClose close escape behind ahead with
    | some n => Closes (behind.reverse ++ ahead) close escape (behind.length + n) ∧
        ∀ k, behind.length ≤ k → k < behind.length + n →
          ¬Closes (behind.reverse ++ ahead) close escape k
    | none => ∀ k, behind.length ≤ k → ¬Closes (behind.reverse ++ ahead) close escape k := by
  induction ahead generalizing behind with
  | nil =>
    intro k hk hcloses
    have hlt : k < behind.length := by simpa using hcloses.1
    omega
  | cons x ahead ih =>
    have hhere := closes_iff behind x ahead close escape
    have ih := ih (x :: behind)
    simp only [List.reverse_cons, List.append_assoc, List.singleton_append,
      List.length_cons] at ih
    rw [findClose]
    by_cases hclose :
        (close.isPrefixOf (x :: ahead) && !isEscaped ⟨behind, x :: ahead⟩ escape) = true
    · rw [if_pos hclose]
      exact ⟨hhere.2 hclose, fun k hk hlt => absurd hlt (by omega)⟩
    · have later : ∀ k, behind.length ≤ k →
          Closes (behind.reverse ++ x :: ahead) close escape k → behind.length + 1 ≤ k := by
        intro k hk hcloses
        refine Nat.lt_of_le_of_ne hk fun heq => ?_
        rw [← heq] at hcloses
        exact hclose (hhere.1 hcloses)
      rw [if_neg hclose]
      cases hfind : findClose close escape (x :: behind) ahead with
      | none =>
        rw [hfind] at ih
        exact fun k hk hcloses => ih k (later k hk hcloses) hcloses
      | some n =>
        rw [hfind] at ih
        simp only [Option.map_some]
        have hplace : behind.length + (n + 1) = behind.length + 1 + n := by omega
        rw [hplace]
        exact ⟨ih.1, fun k hk hlt hcloses => ih.2 k (later k hk hcloses) hlt hcloses⟩

theorem Matcher.run_le {m : Matcher} {text : List Char} {p max n n' : Nat} (bounded : n ≤ max)
    (accepted : ∀ i < n, m.AcceptsAt text (p + i))
    (longest : n' = max ∨ ¬m.AcceptsAt text (p + n')) : n ≤ n' := by
  rcases longest with rfl | hstop
  · exact bounded
  · exact Nat.le_of_not_lt fun hlt => hstop (accepted n' hlt)

theorem Step.Takes.unique {text : List Char} {s : Step} {p : Nat} {r r' : Place}
    (h : s.Takes text p r) (h' : s.Takes text p r') : r = r' := by
  cases h with
  | root => cases h'; rfl
  | one => cases h'; rfl
  | run enough bounded accepted longest =>
    cases h' with
    | run enough' bounded' accepted' longest' =>
      rw [Nat.le_antisymm (Matcher.run_le bounded accepted longest')
        (Matcher.run_le bounded' accepted' longest)]
  | closed after closes first =>
    cases h' with
    | closed after' closes' first' =>
      rename_i q q'
      rcases Nat.lt_trichotomy q q' with hlt | rfl | hlt
      · exact absurd closes (first' q after hlt)
      · rfl
      · exact absurd closes' (first q' after' hlt)
    | unclosed never => exact absurd closes (never _ after)
  | unclosed never =>
    cases h' with
    | closed after' closes' _ => exact absurd closes' (never _ after')
    | unclosed => rfl

def Advance.place? (start : Nat) : Advance → Option Place
  | blocked => none
  | reached n => some (.amid (start + n))
  | exhausted n => some (.final (start + n))

theorem Step.takes_of_advance {s : Step} {c : Cursor} {r : Place}
    (h : (s.advance c).place? c.index = some r) : s.Takes c.text c.index r := by
  cases s with
  | root =>
    cases h
    exact .root
  | one m =>
    cases hahead : c.ahead with
    | nil => simp [advance, hahead, Advance.place?] at h
    | cons x ahead =>
      by_cases hx : m.accepts x = true
      · simp only [advance, hahead, hx, if_true, Advance.place?, Option.some.injEq] at h
        subst h
        exact .one ((m.acceptsAt_iff c 0).2 ⟨x, by simp [hahead], hx⟩)
      · simp [advance, hahead, hx, Advance.place?] at h
  | run m min max =>
    obtain ⟨hle, haccepted, hlongest⟩ := m.runLength_longest max c
    by_cases hmin : m.runLength max c.ahead < min
    · simp [advance, hmin, Advance.place?] at h
    · simp only [advance, hmin, if_false, Advance.place?, Option.some.injEq] at h
      subst h
      exact .run (Nat.not_lt.1 hmin) hle haccepted hlongest
  | stopAt close escape =>
    have hspec := findClose_spec close escape c.behind c.ahead
    cases hfind : findClose close escape c.behind c.ahead with
    | some n =>
      simp only [hfind] at hspec
      simp only [advance, hfind, Advance.place?, Option.some.injEq] at h
      subst h
      exact .closed (Nat.le_add_right _ _) hspec.1 hspec.2
    | none =>
      simp only [hfind] at hspec
      simp only [advance, hfind, Advance.place?, Option.some.injEq, ← c.length_text] at h
      subst h
      exact .unclosed hspec

theorem Step.not_takes_of_blocked {s : Step} {c : Cursor} (h : s.advance c = .blocked)
    (r : Place) : ¬s.Takes c.text c.index r := by
  intro htakes
  cases htakes with
  | root => cases h
  | one accepted =>
    rename_i m
    obtain ⟨x, hahead, hx⟩ := (m.acceptsAt_iff c 0).1 accepted
    cases hc : c.ahead with
    | nil => simp [hc] at hahead
    | cons y ahead =>
      obtain rfl : y = x := by simpa [hc] using hahead
      simp [advance, hc, hx] at h
  | @run m min max _ n enough bounded accepted _ =>
    have hn := Matcher.run_le bounded accepted (m.runLength_longest max c).2.2
    have hmin : ¬m.runLength max c.ahead < min := by omega
    simp [advance, hmin] at h
  | closed =>
    simp only [advance] at h
    split at h <;> cases h
  | unclosed =>
    simp only [advance] at h
    split at h <;> cases h

theorem Step.takes_iff {s : Step} {c : Cursor} {r : Place} :
    s.Takes c.text c.index r ↔ (s.advance c).place? c.index = some r := by
  constructor
  · intro htakes
    have advances : ∀ r', (s.advance c).place? c.index = some r' →
        (s.advance c).place? c.index = some r :=
      fun r' h => (htakes.unique (takes_of_advance h)) ▸ h
    cases h : s.advance c with
    | blocked => exact absurd htakes (not_takes_of_blocked h r)
    | reached n => rw [h] at advances; exact advances _ rfl
    | exhausted n => rw [h] at advances; exact advances _ rfl
  · exact takes_of_advance

/-- Steps that are taken one after the other from a place. -/
def TakesAll (text : List Char) : List Step → Place → Place → Prop
  | [], r, r' => r' = r
  | s :: steps, r, r' =>
    ∃ p between, r = .amid p ∧ s.Takes text p between ∧ TakesAll text steps between r'

theorem takesAll_append {text : List Char} {steps more : List Step} {r r' : Place} :
    TakesAll text (steps ++ more) r r' ↔
      ∃ between, TakesAll text steps r between ∧ TakesAll text more between r' := by
  induction steps generalizing r with
  | nil => simp [TakesAll]
  | cons s steps ih =>
    simp only [List.cons_append, TakesAll, ih]
    constructor
    · rintro ⟨p, between, hr, hs, last, hsteps, hmore⟩
      exact ⟨last, ⟨p, between, hr, hs, hsteps⟩, hmore⟩
    · rintro ⟨last, ⟨p, between, hr, hs, hsteps⟩, hmore⟩
      exact ⟨p, between, hr, hs, last, hsteps, hmore⟩

namespace Fragment

/-- The sequences of steps that a fragment stands for. -/
def alternatives : Fragment → List (List Step)
  | .step s => [[s]]
  | .empty => [[]]
  | .append first second =>
    first.alternatives.flatMap fun steps => second.alternatives.map (steps ++ ·)
  | .optional body => [] :: body.alternatives

theorem takes_iff {text : List Char} {f : Fragment} {r r' : Place} :
    f.Takes text r r' ↔ ∃ steps ∈ f.alternatives, TakesAll text steps r r' := by
  induction f generalizing r r' with
  | step s => simp [Takes, alternatives, TakesAll]
  | empty => simp [Takes, alternatives, TakesAll]
  | append first second ih₁ ih₂ =>
    simp only [Takes, alternatives, ih₁, ih₂, List.mem_flatMap, List.mem_map]
    constructor
    · rintro ⟨between, ⟨steps, hsteps, htakes⟩, more, hmore, htakes'⟩
      exact ⟨_, ⟨steps, hsteps, more, hmore, rfl⟩, takesAll_append.2 ⟨between, htakes, htakes'⟩⟩
    · rintro ⟨_, ⟨steps, hsteps, more, hmore, rfl⟩, htakes⟩
      obtain ⟨between, htakes, htakes'⟩ := takesAll_append.1 htakes
      exact ⟨between, ⟨steps, hsteps, htakes⟩, more, hmore, htakes'⟩
  | optional body ih => simp [Takes, alternatives, TakesAll, ih]

end Fragment

theorem takesAll_final {text : List Char} {steps : List Step} {p : Nat} {r : Place} :
    TakesAll text steps (.final p) r ↔ steps = [] ∧ r = .final p := by
  cases steps <;> simp [TakesAll]

theorem takesAll_cons {s : Step} {steps : List Step} {c : Cursor} {r : Place} :
    TakesAll c.text (s :: steps) (.amid c.index) r ↔
      match s.advance c with
      | .blocked => False
      | .reached n => TakesAll c.text steps (.amid (c.advance n).index) r
      | .exhausted n => steps = [] ∧ r = .final (c.index + n) := by
  simp only [TakesAll, Place.amid.injEq, exists_and_left, exists_eq_left', Step.takes_iff]
  cases h : s.advance c with
  | blocked => simp [Advance.place?]
  | reached n => simp [Advance.place?, Cursor.index_advance (Step.le_of_advance h)]
  | exhausted n => simp [Advance.place?, takesAll_final]

theorem steps_iff_takesAll {steps : List Step} {c : Cursor} {finish : Nat} :
    (∃ n, Steps steps c n ∧ c.index + n = finish) ↔
      ∃ r, TakesAll c.text steps (.amid c.index) r ∧ r.position = finish := by
  induction steps generalizing c with
  | nil =>
    constructor
    · rintro ⟨n, ⟨⟩, rfl⟩
      exact ⟨_, rfl, rfl⟩
    · rintro ⟨_, rfl, rfl⟩
      exact ⟨0, .nil, rfl⟩
  | cons s steps ih =>
    constructor
    · rintro ⟨n, hsteps, rfl⟩
      cases hsteps with
      | exhausted here => exact ⟨_, takesAll_cons.2 (by rw [here]; exact ⟨rfl, rfl⟩), rfl⟩
      | @more _ _ n m _ here rest =>
        have hindex := Cursor.index_advance (Step.le_of_advance here)
        obtain ⟨r, htakes, hr⟩ := ih.1 ⟨m, rest, by omega⟩
        rw [Cursor.text_advance] at htakes
        exact ⟨r, takesAll_cons.2 (by rw [here]; exact htakes), hr⟩
    · rintro ⟨r, htakes, rfl⟩
      have htakes := takesAll_cons.1 htakes
      cases here : s.advance c with
      | blocked => simp [here] at htakes
      | reached k =>
        rw [here, ← c.text_advance k] at htakes
        obtain ⟨m, rest, hm⟩ := ih.2 ⟨r, htakes, rfl⟩
        have hindex := Cursor.index_advance (Step.le_of_advance here)
        exact ⟨k + m, .more here rest, by omega⟩
      | exhausted k =>
        rw [here] at htakes
        obtain ⟨rfl, rfl⟩ := htakes
        exact ⟨k, .exhausted here, rfl⟩

/-- A fragment reaches what its steps take. -/
theorem Fragment.reaches_iff {f : Fragment} {c : Cursor} {finish : Nat} :
    f.Reaches c.text c.index finish ↔
      ∃ steps ∈ f.alternatives, ∃ n, Steps steps c n ∧ c.index + n = finish := by
  simp only [Reaches, takes_iff, steps_iff_takesAll]
  constructor
  · rintro ⟨r, ⟨steps, hsteps, htakes⟩, hr⟩
    exact ⟨steps, hsteps, r, htakes, hr⟩
  · rintro ⟨steps, hsteps, r, htakes, hr⟩
    exact ⟨r, ⟨steps, hsteps, htakes⟩, hr⟩

end FormulaEngine
