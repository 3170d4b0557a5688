import FormulaEngine.Proofs.Saturation

/-!
# Flatness

What folding leaves: calls for conjunctions and disjunctions of at least two elements, none of which
is a constant or could be merged. Folding has nothing to do on such a tree.
-/
namespace FormulaEngine

open Formula

namespace Tree

section

variable {P : Tree → Prop} (nested : ∀ f ts, P (call f ts) → ∀ t ∈ ts, P t) {absorbing : Bool}

include nested

theorem of_mem_kept {t : Tree} {us : List Tree} (h : kept absorbing t = some us) (ht : P t) :
    ∀ u ∈ us, P u := by
  cases t with
  | literal l =>
    cases l with
    | boolean b =>
      rw [kept] at h
      split at h
      · cases h
      · cases h
        exact List.forall_mem_nil _
    | _ => cases h; simpa using ht
  | call f ts =>
    rw [kept] at h
    split at h
    · cases h
      exact nested f us ht
    · cases h
      simpa using ht
  | _ => cases h; simpa using ht

theorem of_mem_keep {ts us : List Tree} (h : keep absorbing ts = some us) (hts : ∀ t ∈ ts, P t) :
    ∀ u ∈ us, P u :=
  (merges absorbing).forall_mem (fun _ _ => of_mem_kept nested) h hts

end

theorem everywhere_fold {ops : BinaryOperator → Prop} {calls : Callee → List Tree → Prop}
    {absorbing : Bool} {ts : List Tree}
    (made : ∀ us, keep absorbing ts = some us → 2 ≤ us.length →
      calls (.many (if absorbing then .any else .all)) us)
    (h : EverywhereAll ops calls ts) : (fold absorbing ts).Everywhere ops calls := by
  have hmem : ∀ us, keep absorbing ts = some us → EverywhereAll ops calls us := fun us hkeep =>
    everywhereAll_iff.2 (of_mem_keep (fun _ _ ht => everywhereAll_iff.1 ht.2) hkeep
      (everywhereAll_iff.1 h))
  rw [fold]
  split
  · trivial
  · trivial
  · rename_i t hkeep
    exact (hmem _ hkeep).1
  · rename_i us hnone hone hkeep
    refine ⟨made us hkeep ?_, hmem us hkeep⟩
    rcases us with _ | ⟨t, _ | ⟨u, us⟩⟩
    · exact absurd rfl hnone
    · exact absurd rfl (hone t)
    · simp

/-- Conjunctions and disjunctions are calls, of two elements or more that all stay as they are. -/
def FlatCall (f : Callee) (ts : List Tree) : Prop :=
  ∀ absorbing, f.absorbing? = some absorbing →
    2 ≤ ts.length ∧ ∀ t ∈ ts, kept absorbing t = some [t]

def Flat : Tree → Prop := Everywhere (·.absorbing? = none) FlatCall

def AllFlat : List Tree → Prop := EverywhereAll (·.absorbing? = none) FlatCall

section

variable {absorbing : Bool}

theorem kept_of_mem_kept {t : Tree} {us : List Tree} (ht : t.Flat)
    (h : kept absorbing t = some us) : ∀ u ∈ us, kept absorbing u = some [u] := by
  cases t with
  | literal l =>
    cases l with
    | boolean b =>
      rw [kept] at h
      split at h
      · cases h
      · cases h
        exact List.forall_mem_nil _
    | _ => cases h; simp [kept]
  | call f ts =>
    rw [kept] at h
    split at h
    · rename_i hf
      cases h
      exact (ht.1 absorbing hf).2
    · rename_i hf
      cases h
      simp [kept, hf]
  | _ => cases h; simp [kept]

theorem kept_of_mem_keep {ts us : List Tree} (hts : AllFlat ts)
    (h : keep absorbing ts = some us) : ∀ u ∈ us, kept absorbing u = some [u] :=
  (merges absorbing).forall_mem (fun _ _ hkept ht => kept_of_mem_kept ht hkept) h
    (everywhereAll_iff.1 hts)

theorem keep_eq_self {ts : List Tree} (h : ∀ t ∈ ts, kept absorbing t = some [t]) :
    keep absorbing ts = some ts := by
  induction ts with
  | nil => rfl
  | cons t ts ih =>
    have hts := ih fun u hu => h u (by simp [hu])
    simp [keep, h t (by simp), hts]

theorem flat_fold {ts : List Tree} (h : AllFlat ts) : (fold absorbing ts).Flat := by
  refine everywhere_fold (fun us hkeep htwo absorbing' hf => ?_) h
  have habsorbing : absorbing' = absorbing := by
    cases absorbing <;> exact (Option.some.inj hf).symm
  subst habsorbing
  exact ⟨htwo, kept_of_mem_keep h hkeep⟩

end

mutual

theorem flat_folded (t : Tree) : t.folded.Flat := by
  cases t with
  | literal l => trivial
  | reference r => trivial
  | prefixed op operand => exact operand.flat_folded
  | infixed op left right =>
    have hleft := left.flat_folded
    have hright := right.flat_folded
    simp only [folded, rebuild] at hleft hright ⊢
    split
    · exact flat_fold ⟨hleft, hright, trivial⟩
    · rename_i hop
      exact ⟨hop, hleft, hright⟩
  | call f arguments =>
    have harguments := allFlat_rebuildAll arguments
    simp only [folded, rebuild]
    split
    · exact flat_fold harguments
    · rename_i hf
      exact ⟨fun absorbing h => by simp [hf] at h, harguments⟩
  | annotated subject label => exact subject.flat_folded

theorem allFlat_rebuildAll (ts : List Tree) : AllFlat (rebuildAll infixed ts) := by
  cases ts with
  | nil => trivial
  | cons t ts => exact ⟨t.flat_folded, allFlat_rebuildAll ts⟩

end

mutual

theorem saturated_folded {t : Tree} (h : t.Saturated) : t.folded.Saturated := by
  cases t with
  | literal l => trivial
  | reference r => trivial
  | prefixed op operand => exact saturated_folded (t := operand) h
  | infixed op left right =>
    have hleft := saturated_folded h.2.1
    have hright := saturated_folded h.2.2
    simp only [folded, rebuild] at hleft hright ⊢
    split
    · exact everywhere_fold (fun _ _ _ => trivial) ⟨hleft, hright, trivial⟩
    · exact ⟨trivial, hleft, hright⟩
  | call f arguments =>
    have harguments := allSaturated_rebuildAll h.2
    simp only [folded, rebuild]
    split
    · exact everywhere_fold (fun _ _ _ => trivial) harguments
    · have htakes : f.takes (rebuildAll infixed arguments).length := by
        rw [rebuildAll_eq_map, List.length_map]
        exact h.1
      exact ⟨htakes, harguments⟩
  | annotated subject label => exact saturated_folded (t := subject) h

theorem allSaturated_rebuildAll {ts : List Tree} (h : AllSaturated ts) :
    AllSaturated (rebuildAll infixed ts) := by
  cases ts with
  | nil => trivial
  | cons t ts => exact ⟨saturated_folded h.1, allSaturated_rebuildAll h.2⟩

end

theorem fold_eq_call {absorbing : Bool} {f : Callee} {ts : List Tree}
    (hf : f.absorbing? = some absorbing) (two : 2 ≤ ts.length)
    (h : ∀ t ∈ ts, kept absorbing t = some [t]) : fold absorbing ts = call f ts := by
  have hcallee : .many (if absorbing then .any else .all) = f := by
    cases f with
    | many f => cases f <;> cases hf <;> rfl
    | _ => cases hf
  rw [fold, keep_eq_self h]
  rcases ts with _ | ⟨t, _ | ⟨u, ts⟩⟩
  · cases two
  · exact absurd two (by simp)
  · rw [hcallee]

mutual

theorem folded_eq_self {t : Tree} (h : t.Flat) : t.folded = t := by
  cases t with
  | literal l => rfl
  | reference r => rfl
  | prefixed op operand =>
    have hoperand : operand.folded = operand := folded_eq_self h
    rw [folded] at hoperand
    rw [folded, rebuild, hoperand]
  | infixed op left right =>
    have hleft := folded_eq_self h.2.1
    have hright := folded_eq_self h.2.2
    rw [folded] at hleft hright
    simp only [folded, rebuild, h.1, hleft, hright]
  | call f arguments =>
    have harguments := rebuildAll_eq_self h.2
    simp only [folded, rebuild, harguments]
    cases hf : f.absorbing? with
    | none => rfl
    | some absorbing => exact fold_eq_call hf (h.1 absorbing hf).1 (h.1 absorbing hf).2
  | annotated subject label =>
    have hsubject : subject.folded = subject := folded_eq_self h
    rw [folded] at hsubject
    rw [folded, rebuild, hsubject]

theorem rebuildAll_eq_self {ts : List Tree} (h : AllFlat ts) : rebuildAll infixed ts = ts := by
  cases ts with
  | nil => rfl
  | cons t ts =>
    have ht := folded_eq_self h.1
    rw [folded] at ht
    rw [rebuildAll, ht, rebuildAll_eq_self h.2]

end

end Tree

end FormulaEngine
