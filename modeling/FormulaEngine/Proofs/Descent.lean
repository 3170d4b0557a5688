import FormulaEngine.Proofs.Cutting

/-!
# Descent

How the first match below a branch is found: along a path of steps that each take some characters,
and past the branches that cannot begin with the character ahead.
-/
namespace FormulaEngine

variable {α : Type}

/-- The step takes a character, but not this one. -/
def Step.refuses : Step → Char → Bool
  | .root, _ => false
  | .one m, c => !m.accepts c
  | .run m min _, c => min != 0 && !m.accepts c
  | .stopAt _ _, _ => false

theorem Step.advance_of_refuses {s : Step} {c : Char} (h : s.refuses c = true)
    (behind cs : List Char) : s.advance ⟨behind, c :: cs⟩ = .blocked := by
  cases s with
  | root => cases h
  | one m =>
    have hm : m.accepts c = false := by simpa [refuses] using h
    simp [advance, hm]
  | run m min max =>
    obtain ⟨hmin, hm⟩ : min ≠ 0 ∧ m.accepts c = false := by simpa [refuses] using h
    have hlength : m.runLength max (c :: cs) = 0 := by
      cases max with
      | zero => rfl
      | succ max => simp [Matcher.runLength, hm]
    simp only [advance, hlength]
    rw [if_pos (Nat.pos_of_ne_zero hmin)]
  | stopAt close escape => cases h

def Step.takesOnly (allowed : List Char) : Step → Bool
  | .root => false
  | .one (.char c) => allowed.contains c
  | .one (.anyOf cs) => cs.all allowed.contains
  | .run (.char c) min _ => min != 0 && allowed.contains c
  | .run (.anyOf cs) min _ => min != 0 && cs.all allowed.contains
  | .stopAt _ _ => false

/-- The text does not go on with one of these characters. -/
def Avoids (rest excluded : List Char) : Prop := ∀ c ∈ rest.head?, c ∉ excluded

-- A general instance for a quantifier over characters would go through all of them.
instance : (rest excluded : List Char) → Decidable (Avoids rest excluded)
  | [], _ => isTrue nofun
  | c :: _, excluded => decidable_of_iff (c ∉ excluded)
      ⟨fun h _ hd => Option.some.inj hd ▸ h, fun h => h c rfl⟩

theorem avoids_end (excluded : List Char) : Avoids [] excluded := nofun

theorem Step.advance_of_avoids {s : Step} {allowed rest : List Char}
    (takes : s.takesOnly allowed = true) (avoids : Avoids rest allowed) (behind : List Char) :
    s.advance ⟨behind, rest⟩ = .blocked := by
  cases rest with
  | nil =>
    cases s with
    | root => cases takes
    | one m => rfl
    | run m min max =>
      have hmin : min ≠ 0 := by cases m <;> simp_all [takesOnly]
      have hlength : m.runLength max [] = 0 := by cases max <;> rfl
      simp only [advance, hlength]
      rw [if_pos (Nat.pos_of_ne_zero hmin)]
    | stopAt close escape => cases takes
  | cons c rest =>
    have hc : c ∉ allowed := avoids c rfl
    refine advance_of_refuses ?_ behind rest
    cases s with
    | root => cases takes
    | one m =>
      cases m with
      | char d =>
        have hd : d ∈ allowed := by simpa [takesOnly] using takes
        have hne : d ≠ c := fun h => hc (h ▸ hd)
        simp [refuses, Matcher.accepts, hne]
      | anyOf cs =>
        have hcs : ∀ d ∈ cs, d ∈ allowed := by simpa [takesOnly] using takes
        have hne : c ∉ cs := fun h => hc (hcs c h)
        simp [refuses, Matcher.accepts, hne]
    | run m min max =>
      cases m with
      | char d =>
        obtain ⟨hmin, hd⟩ : min ≠ 0 ∧ d ∈ allowed := by simpa [takesOnly] using takes
        have hne : d ≠ c := fun h => hc (h ▸ hd)
        simp [refuses, Matcher.accepts, hne, hmin]
      | anyOf cs =>
        obtain ⟨hmin, hcs⟩ : min ≠ 0 ∧ ∀ d ∈ cs, d ∈ allowed := by simpa [takesOnly] using takes
        have hne : c ∉ cs := fun h => hc (hcs c h)
        simp [refuses, Matcher.accepts, hne, hmin]
    | stopAt close escape => cases takes

namespace Branch

def step : Branch α → Step
  | node s _ _ => s

theorem first?_of_blocked {b : Branch α} {c : Cursor} (h : b.step.advance c = .blocked)
    (taken : Nat) : b.first? c taken = none := by
  obtain ⟨s, mark, children⟩ := b
  have hs : s.advance c = .blocked := h
  simp only [first?, hs]

theorem firstAmong?_of_avoids {bs : List (Branch α)} {allowed rest : List Char}
    (takes : bs.all (fun b => b.step.takesOnly allowed) = true) (avoids : Avoids rest allowed)
    (behind : List Char) (taken : Nat) : firstAmong? bs ⟨behind, rest⟩ taken = none := by
  induction bs with
  | nil => rfl
  | cons b bs ih =>
    obtain ⟨hb, hbs⟩ := (Bool.and_eq_true _ _).mp takes
    rw [firstAmong?, first?_of_blocked (Step.advance_of_avoids hb avoids behind), ih hbs]
    rfl

/-- The first branch that does not refuse the character ahead. -/
def openFor? (bs : List (Branch α)) (c : Char) : Option (Branch α) :=
  bs.find? fun b => !b.step.refuses c

theorem firstAmong?_of_openFor? {bs : List (Branch α)} {c : Char} {b : Branch α}
    (found : openFor? bs c = some b) {behind cs : List Char} {taken : Nat} {m : α × Nat}
    (h : b.first? ⟨behind, c :: cs⟩ taken = some m) :
    firstAmong? bs ⟨behind, c :: cs⟩ taken = some m := by
  induction bs with
  | nil => cases found
  | cons b' bs ih =>
    by_cases hrefuses : b'.step.refuses c = true
    · have hbs : openFor? bs c = some b := by
        simpa [openFor?, List.find?_cons, hrefuses] using found
      rw [firstAmong?, first?_of_blocked (Step.advance_of_refuses hrefuses behind cs), ih hbs]
      rfl
    · have hb : b' = b := by simpa [openFor?, List.find?_cons, hrefuses] using found
      rw [hb, firstAmong?, h]
      rfl

/-- The mark that a branch has for a word, which no further character but the excluded ones
continues. -/
def spells? (excluded : List Char) : List Char → Branch α → Option α
  | [], .node _ mark children =>
    if children.all fun b => b.step.takesOnly excluded then mark else none
  | c :: cs, .node _ _ children =>
    match openFor? children c with
    | some (.node (.one m) mark below) =>
      if m.accepts c then spells? excluded cs (.node (.one m) mark below) else none
    | _ => none

theorem first?_of_spells? {excluded cs rest : List Char} (avoids : Avoids rest excluded)
    {s : Step} {mark : Option α} {children : List (Branch α)} {e : α}
    (spells : spells? excluded cs (.node s mark children) = some e) (behind : List Char)
    (taken : Nat) (takes : 0 < taken + cs.length) :
    (firstAmong? children ⟨behind, cs ++ rest⟩ taken).or (completed? mark taken) =
      some (e, taken + cs.length) := by
  induction cs generalizing s mark children behind taken with
  | nil =>
    simp only [spells?] at spells
    split at spells
    · rename_i hall
      have htaken : 0 < taken := takes
      rw [List.nil_append, firstAmong?_of_avoids hall avoids, spells, completed?, if_pos htaken]
      rfl
    · cases spells
  | cons c cs ih =>
    simp only [spells?] at spells
    split at spells
    · rename_i m mark' below hfound
      split at spells
      · rename_i hm
        have hbelow := ih spells (c :: behind) (taken + 1) (by omega)
        have hfirst : (Branch.node (.one m) mark' below).first? ⟨behind, c :: (cs ++ rest)⟩ taken =
            some (e, taken + (c :: cs).length) := by
          simp only [first?, Step.advance, hm, if_true, Cursor.advance, hbelow, List.length_cons]
          congr 2
          omega
        rw [List.cons_append, firstAmong?_of_openFor? hfound hfirst]
        rfl
      · cases spells
    · cases spells

mutual

def paths : Branch α → List (List Step × α)
  | .node step mark children =>
    (pathsAll children).map (fun p => (step :: p.1, p.2)) ++ mark.toList.map fun e => ([step], e)

def pathsAll : List (Branch α) → List (List Step × α)
  | [] => []
  | b :: bs => b.paths ++ pathsAll bs

end

theorem pos_of_completed? {mark : Option α} {length : Nat} {m : α × Nat}
    (h : completed? mark length = some m) : 0 < m.2 := by
  unfold completed? at h
  split at h
  · obtain ⟨_, _, rfl⟩ := Option.map_eq_some_iff.1 h
    assumption
  · cases h

mutual

theorem pos_of_first? (b : Branch α) {c : Cursor} {taken : Nat} {m : α × Nat}
    (h : b.first? c taken = some m) : 0 < m.2 := by
  obtain ⟨s, mark, children⟩ := b
  simp only [first?] at h
  split at h
  · cases h
  · rcases Option.or_eq_some_iff.1 h with hbelow | ⟨_, hhere⟩
    · exact pos_of_firstAmong? children hbelow
    · exact pos_of_completed? hhere
  · exact pos_of_completed? h

theorem pos_of_firstAmong? (bs : List (Branch α)) {c : Cursor} {taken : Nat} {m : α × Nat}
    (h : firstAmong? bs c taken = some m) : 0 < m.2 := by
  cases bs with
  | nil => cases h
  | cons b bs =>
    rcases Option.or_eq_some_iff.1 h with hfirst | ⟨_, hlater⟩
    · exact pos_of_first? b hfirst
    · exact pos_of_firstAmong? bs hlater

end

end Branch

/-- Steps that are taken one after the other, and the number of characters that they take. -/
inductive Steps : List Step → Cursor → Nat → Prop
  | nil {c : Cursor} : Steps [] c 0
  | exhausted {s : Step} {c : Cursor} {n : Nat} (here : s.advance c = .exhausted n) : Steps [s] c n
  | more {s : Step} {c : Cursor} {n m : Nat} {steps : List Step} (here : s.advance c = .reached n)
    (rest : Steps steps (c.advance n) m) : Steps (s :: steps) c (n + m)

namespace Branch

mutual

theorem steps_of_first? (b : Branch α) {c : Cursor} {taken length : Nat} {e : α}
    (h : b.first? c taken = some (e, length)) :
    ∃ steps n, (steps, e) ∈ b.paths ∧ Steps steps c n ∧ length = taken + n := by
  obtain ⟨s, mark, children⟩ := b
  have atEnd : ∀ n, completed? mark (taken + n) = some (e, length) →
      mark = some e ∧ length = taken + n := by
    intro n hn
    unfold completed? at hn
    split at hn
    · obtain ⟨_, hmark, heq⟩ := Option.map_eq_some_iff.1 hn
      cases heq
      exact ⟨hmark, rfl⟩
    · cases hn
  simp only [first?] at h
  split at h
  · cases h
  · rename_i n hadvance
    rcases Option.or_eq_some_iff.1 h with hbelow | ⟨_, hhere⟩
    · obtain ⟨steps, m, hpath, hsteps, hlength⟩ := steps_of_firstAmong? children hbelow
      refine ⟨s :: steps, n + m, ?_, .more hadvance hsteps, by omega⟩
      rw [paths]
      exact List.mem_append_left _ (List.mem_map.2 ⟨_, hpath, rfl⟩)
    · obtain ⟨rfl, hlength⟩ := atEnd n hhere
      exact ⟨[s], n, by simp [paths], .more hadvance .nil, hlength⟩
  · rename_i n hadvance
    obtain ⟨rfl, hlength⟩ := atEnd n h
    exact ⟨[s], n, by simp [paths], .exhausted hadvance, hlength⟩

theorem steps_of_firstAmong? (bs : List (Branch α)) {c : Cursor} {taken length : Nat} {e : α}
    (h : firstAmong? bs c taken = some (e, length)) :
    ∃ steps n, (steps, e) ∈ pathsAll bs ∧ Steps steps c n ∧ length = taken + n := by
  cases bs with
  | nil => cases h
  | cons b bs =>
    rcases Option.or_eq_some_iff.1 h with hfirst | ⟨_, hlater⟩
    · obtain ⟨steps, n, hpath, hsteps⟩ := steps_of_first? b hfirst
      exact ⟨steps, n, List.mem_append_left _ hpath, hsteps⟩
    · obtain ⟨steps, n, hpath, hsteps⟩ := steps_of_firstAmong? bs hlater
      exact ⟨steps, n, List.mem_append_right _ hpath, hsteps⟩

end

end Branch

end FormulaEngine
