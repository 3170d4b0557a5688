import FormulaEngine.Proofs.References

/-!
# Globs

A pattern covers the texts that its segments, which are the parts between its stars, make with any
runs of characters between them. A star does not reach over the end of a line, so that no run has a
line feed in it.
-/
namespace FormulaEngine

namespace Wildcard

/-- The parts of a pattern between its stars. -/
def segments (pattern : List Char) : List (List Char) := pattern.splitOn star

/-- The segments with the runs between them. -/
def woven : (segments runs : List (List Char)) → List Char
  | [], _ => []
  | s :: _, [] => s
  | s :: segments, r :: runs => s ++ (r ++ woven segments runs)

/-- The text consists of the segments and of a run of characters of a line between any two. -/
def Covers (segments : List (List Char)) (text : List Char) : Prop :=
  ∃ runs, runs.length + 1 = segments.length ∧ (∀ r ∈ runs, '\n' ∉ r) ∧ text = woven segments runs

theorem covers_single {s text : List Char} : Covers [s] text ↔ text = s := by
  constructor
  · rintro ⟨runs, hlength, _, rfl⟩
    obtain rfl : runs = [] := List.length_eq_zero_iff.1 (Nat.succ.inj hlength)
    rfl
  · rintro rfl
    exact ⟨[], rfl, by simp, rfl⟩

theorem covers_cons_cons {s s' : List Char} {segments : List (List Char)} {text : List Char} :
    Covers (s :: s' :: segments) text ↔
      ∃ run rest, text = s ++ (run ++ rest) ∧ '\n' ∉ run ∧ Covers (s' :: segments) rest := by
  constructor
  · rintro ⟨runs, hlength, hlines, rfl⟩
    cases runs with
    | nil => cases hlength
    | cons run runs =>
      refine ⟨run, _, rfl, hlines run (by simp), runs, Nat.succ.inj hlength, ?_, rfl⟩
      exact fun r hr => hlines r (by simp [hr])
  · rintro ⟨run, _, rfl, hrun, runs, hlength, hlines, rfl⟩
    exact ⟨run :: runs, congrArg (· + 1) hlength, by simpa using ⟨hrun, hlines⟩, rfl⟩

theorem covers_cons_head {c : Char} {s : List Char} {segments : List (List Char)}
    {text : List Char} : Covers ((c :: s) :: segments) text ↔
      ∃ rest, text = c :: rest ∧ Covers (s :: segments) rest := by
  have hhead : ∀ runs, woven ((c :: s) :: segments) runs = c :: woven (s :: segments) runs := by
    intro runs
    cases runs <;> rfl
  constructor
  · rintro ⟨runs, hlength, hlines, rfl⟩
    exact ⟨_, hhead runs, runs, hlength, hlines, rfl⟩
  · rintro ⟨_, rfl, runs, hlength, hlines, rfl⟩
    exact ⟨runs, hlength, hlines, (hhead runs).symm⟩

theorem segments_star (pattern : List Char) :
    segments (star :: pattern) = [] :: segments pattern := by
  simp [segments, List.splitOn_cons_eq_if_modifyHead]

theorem segments_cons {c : Char} (literal : c ≠ star) {s : List Char} {pattern : List Char}
    {more : List (List Char)} (rest : segments pattern = s :: more) :
    segments (c :: pattern) = (c :: s) :: more := by
  rw [segments] at rest ⊢
  rw [List.splitOn_cons_eq_if_modifyHead, rest]
  simp [literal]

theorem exists_segments_eq_cons (pattern : List Char) :
    ∃ s more, segments pattern = s :: more :=
  List.exists_cons_of_ne_nil (List.splitOn_ne_nil star pattern)

theorem mem_remainders {text rest : List Char} :
    rest ∈ remainders text ↔ ∃ run, text = run ++ rest ∧ '\n' ∉ run := by
  induction text with
  | nil =>
    simp only [remainders, List.mem_singleton, List.nil_eq, List.append_eq_nil_iff]
    constructor
    · rintro rfl
      exact ⟨[], ⟨rfl, rfl⟩, by simp⟩
    · rintro ⟨run, ⟨_, rfl⟩, _⟩
      rfl
  | cons c text ih =>
    rw [remainders, List.mem_cons]
    constructor
    · rintro (rfl | hrest)
      · exact ⟨[], rfl, by simp⟩
      · split at hrest
        · rename_i hspans
          obtain ⟨run, rfl, hrun⟩ := ih.1 hrest
          refine ⟨c :: run, rfl, ?_⟩
          have hc : c ≠ '\n' := by simpa [spans] using hspans
          simp [hrun, hc.symm]
        · cases hrest
    · rintro ⟨run, htext, hrun⟩
      cases run with
      | nil => exact .inl htext.symm
      | cons d run =>
        obtain ⟨rfl, rfl⟩ := List.cons.inj htext
        obtain ⟨hc, hrun⟩ : c ≠ '\n' ∧ '\n' ∉ run := by simpa [eq_comm] using hrun
        refine .inr ?_
        rw [if_pos (by simpa [spans] using hc)]
        exact ih.2 ⟨run, rfl, hrun⟩

/-- A pattern covers what its segments cover. -/
theorem accepts_iff (pattern text : List Char) :
    accepts pattern text = true ↔ Covers (segments pattern) text := by
  induction pattern generalizing text with
  | nil =>
    rw [accepts, List.isEmpty_iff]
    exact covers_single.symm
  | cons p pattern ih =>
    obtain ⟨s, more, hsegments⟩ := exists_segments_eq_cons pattern
    by_cases hp : p = star
    · subst hp
      simp only [accepts, if_true, List.any_eq_true, mem_remainders, ih]
      rw [segments_star, hsegments, covers_cons_cons]
      constructor
      · rintro ⟨rest, ⟨run, rfl, hrun⟩, hrest⟩
        exact ⟨run, rest, rfl, hrun, hrest⟩
      · rintro ⟨run, rest, rfl, hrun, hrest⟩
        exact ⟨rest, ⟨run, rfl, hrun⟩, hrest⟩
    · rw [segments_cons hp hsegments, covers_cons_head, ← hsegments]
      cases text with
      | nil => simp [accepts, hp]
      | cons c text =>
        simp only [accepts, if_neg hp, Bool.and_eq_true, beq_iff_eq, ih]
        constructor
        · rintro ⟨rfl, htext⟩
          exact ⟨text, rfl, htext⟩
        · rintro ⟨rest, heq, hrest⟩
          obtain ⟨rfl, rfl⟩ := List.cons.inj heq
          exact ⟨rfl, hrest⟩

theorem segments_of_point {pattern : List Char} (point : isPattern pattern = false) :
    segments pattern = [pattern] := by
  induction pattern with
  | nil => rfl
  | cons c pattern ih =>
    obtain ⟨hc, hpattern⟩ : c ≠ star ∧ isPattern pattern = false := by
      rw [isPattern, List.contains_cons, Bool.or_eq_false_iff] at point
      exact ⟨fun h => by simp [h] at point, point.2⟩
    exact segments_cons hc (ih hpattern)

end Wildcard

namespace Context

theorem mem_keysMatching {ctx : Context} {pattern key : String} :
    key ∈ ctx.keysMatching pattern ↔
      key ∈ ctx.keys ∧ Wildcard.Covers (Wildcard.segments pattern.toList) key.toList := by
  by_cases hpattern : Wildcard.isPattern pattern.toList = true
  · rw [keysMatching, if_pos hpattern, List.mem_filter, Wildcard.accepts_iff]
  · rw [keysMatching_of_point _ hpattern,
      Wildcard.segments_of_point (Bool.eq_false_iff.2 hpattern), Wildcard.covers_single,
      String.toList_inj, contains]
    constructor
    · intro hmem
      split at hmem
      · rename_i hbound
        obtain rfl := List.mem_singleton.1 hmem
        exact ⟨mem_keys.2 (Option.isSome_iff_exists.1 hbound), rfl⟩
      · cases hmem
    · rintro ⟨hkey, rfl⟩
      obtain ⟨b, hb⟩ := mem_keys.1 hkey
      simp [hb]

theorem getEach_eq_ok {ctx : Context} {scopes : List (Resolver Value)} {keys : List String}
    {found : List (String × Value)} (h : ctx.getEach scopes keys = .ok found) :
    found.map Prod.fst = keys ∧ ∀ m ∈ found, ctx.getWith scopes m.1 = .ok m.2 := by
  induction keys generalizing found with
  | nil =>
    cases h
    exact ⟨rfl, by simp⟩
  | cons key keys ih =>
    rw [getEach] at h
    split at h
    · cases h
    · rename_i v hv
      split at h
      · cases h
      · rename_i rest hrest
        cases h
        obtain ⟨hkeys, hvalues⟩ := ih hrest
        refine ⟨by rw [List.map_cons, hkeys], fun m hm => ?_⟩
        rcases List.mem_cons.1 hm with rfl | hm
        · exact hv
        · exact hvalues m hm

theorem getEach_eq_error {ctx : Context} {scopes : List (Resolver Value)} {keys : List String}
    {e : ResolveError} (h : ctx.getEach scopes keys = .error e) :
    ∃ key ∈ keys, ctx.getWith scopes key = .error e := by
  induction keys with
  | nil => cases h
  | cons key keys ih =>
    rw [getEach] at h
    split at h
    · rename_i hkey
      cases h
      exact ⟨key, by simp, hkey⟩
    · split at h
      · rename_i hrest
        cases h
        obtain ⟨k, hk, hfails⟩ := ih hrest
        exact ⟨k, by simp [hk], hfails⟩
      · cases h

end Context

end FormulaEngine
