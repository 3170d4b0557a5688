import FormulaEngine.Proofs.Phrases

/-!
# Gaps

Texts with blanks around the words of a phrase, where blanks are ignored. They are read as the words
alone.
-/
namespace FormulaEngine

/-- Blanks, if these are ignored, or nothing. -/
def IsGap (ignoreBlanks : Bool) (gap : List Char) : Prop :=
  gap = [] ∨ (ignoreBlanks = true ∧ IsRun Fragment.blankChars gap)

/-- The text consists of the words, with gaps before, between and after them. -/
inductive Spells (ignoreBlanks : Bool) : List Char → List Word → Prop
  | ends {gap : List Char} (isGap : IsGap ignoreBlanks gap) : Spells ignoreBlanks gap []
  | word {gap text : List Char} {w : Word} {words : List Word} (isGap : IsGap ignoreBlanks gap)
    (rest : Spells ignoreBlanks text words) :
    Spells ignoreBlanks (gap ++ (w.text.toList ++ text)) (w :: words)

theorem Word.not_mem_excludes (w : Word) {c : Char} (blank : c ∈ Fragment.blankChars) :
    c ∉ w.excludes := by
  have hnone : Fragment.blankChars.all (fun c =>
      decide (c ∉ '.' :: '=' :: 'e' :: (Fragment.digitChars ++ Fragment.keyChars))) = true := by
    decide
  have hc := of_decide_eq_true (List.all_eq_true.1 hnone c blank)
  simp only [List.mem_cons, List.mem_append, not_or] at hc
  obtain ⟨hpoint, hequals, he, hdigit, hkey⟩ := hc
  cases w with
  | literal l => cases l <;> simp [excludes, hpoint, hdigit]
  | reference r =>
    rw [excludes]
    split
    · exact hkey
    · simp
  | sign s =>
    cases s with
    | before op => cases op <;> simp [excludes, hequals]
    | between op => cases op <;> simp [excludes, hequals]
  | callee f =>
    cases f with
    | many f => cases f <;> simp [excludes, he]
    | _ => simp [excludes]
  | _ => simp [excludes]

theorem Word.avoids_blanks {w : Word} (hw : w.WellSpelled) (rest : List Char) :
    Avoids (w.text.toList ++ rest) Fragment.blankChars := by
  have hblank : Fragment.blankChars.all Text.isBlank = true := by decide
  refine Word.avoids_text hw (fun c hc hmem => ?_) rest
  have hshown := (Word.of_mem_firsts (Word.mem_firsts hw c hc)).1
  rw [List.all_eq_true.1 hblank c hmem] at hshown
  cases hshown

set_option maxRecDepth 100000 in
theorem openFor?_blank {c : Char} (blank : c ∈ Fragment.blankChars) :
    Branch.openFor? (Entry.branches true) c =
      some (Branch.run Fragment.blankChars (some .blanks) []) := by
  have hall : Fragment.blankChars.all (fun c => decide (Branch.openFor? (Entry.branches true) c =
      some (Branch.run Fragment.blankChars (some .blanks) []))) = true := by
    decide +kernel
  exact of_decide_eq_true (List.all_eq_true.1 hall c blank)

theorem Entry.first?_blanks {gap rest : List Char} (isRun : IsRun Fragment.blankChars gap)
    (avoids : Avoids rest Fragment.blankChars) (behind : List Char) :
    (Entry.tree true).first? ⟨behind, gap ++ rest⟩ 0 = some (blanks, gap.length) := by
  have hpos : 0 < gap.length := List.length_pos_iff.2 isRun.1
  obtain ⟨c, cs, rfl⟩ := List.exists_cons_of_ne_nil isRun.1
  have hc := openFor?_blank (isRun.2.2 c List.mem_cons_self)
  have hrun := Branch.first?_run isRun avoids (some blanks) [] behind 0
  rw [Branch.firstAmong?, Option.none_or, Nat.zero_add, Branch.completed?, if_pos hpos] at hrun
  exact first?_tree_of_openFor? hc hrun

section

variable {ignoreBlanks : Bool} {gap text behind : List Char} {words : List Word}
  {pieces : List (Entry × List Char)}

theorem cuts_gap (isGap : IsGap ignoreBlanks gap) (avoids : Avoids text Fragment.blankChars)
    (rest : ∀ behind, ∃ pieces, (Entry.tree ignoreBlanks).Cuts ⟨behind, text⟩ pieces ∧
      Entry.readAll pieces = words) :
    ∃ pieces, (Entry.tree ignoreBlanks).Cuts ⟨behind, gap ++ text⟩ pieces ∧
      Entry.readAll pieces = words := by
  rcases isGap with rfl | ⟨rfl, hrun⟩
  · exact rest behind
  · obtain ⟨pieces, hcuts, hread⟩ := rest (gap.reverse ++ behind)
    rw [← Cursor.advance_append] at hcuts
    have hne : gap ++ text ≠ [] := fun h => hrun.1 (List.append_eq_nil_iff.1 h).1
    exact ⟨_, .piece hne (Entry.first?_blanks hrun avoids behind) hcuts, hread⟩

theorem cuts_word {w : Word} (hw : w.WellSpelled) (avoids : Avoids text w.excludes)
    (rest : ∀ behind, ∃ pieces, (Entry.tree ignoreBlanks).Cuts ⟨behind, text⟩ pieces ∧
      Entry.readAll pieces = words) (behind : List Char) :
    ∃ pieces, (Entry.tree ignoreBlanks).Cuts ⟨behind, w.text.toList ++ text⟩ pieces ∧
      Entry.readAll pieces = w :: words := by
  obtain ⟨pieces, hcuts, hread⟩ := rest (w.text.toList.reverse ++ behind)
  rw [← Cursor.advance_append] at hcuts
  have hne : w.text.toList ++ text ≠ [] :=
    fun h => Word.text_ne_nil hw (List.append_eq_nil_iff.1 h).1
  refine ⟨_, .piece hne (w.first?_text ignoreBlanks hw avoids behind) hcuts, ?_⟩
  have hpiece : Entry.readAll ((w.entry, w.text.toList) :: pieces) =
      (w.entry.reading w.text.toList).toList ++ Entry.readAll pieces := rfl
  have htake : (w.text.toList ++ text).take w.text.toList.length = w.text.toList :=
    List.take_left
  rw [htake, hpiece, Word.reading_text hw, hread]
  rfl

theorem avoids_of_spells {w : Word} (spells : Spells ignoreBlanks text words)
    (wellSpelled : ∀ v ∈ words, v.WellSpelled)
    (next : ∀ v ∈ words.head?, Avoids v.text.toList w.excludes) : Avoids text w.excludes := by
  have hgap : ∀ {gap rest : List Char}, IsGap ignoreBlanks gap → Avoids rest w.excludes →
      Avoids (gap ++ rest) w.excludes := by
    rintro gap rest (rfl | ⟨-, hrun⟩) hrest
    · exact hrest
    · obtain ⟨c, cs, rfl⟩ := List.exists_cons_of_ne_nil hrun.1
      exact avoids_cons (w.not_mem_excludes (hrun.2.2 c List.mem_cons_self)) _
  cases spells with
  | ends isGap =>
    rw [← List.append_nil text]
    exact hgap isGap (avoids_end _)
  | @word _ _ v _ isGap rest =>
    have hv : v.WellSpelled := wellSpelled v List.mem_cons_self
    exact hgap isGap (Word.avoids_text hv (next v rfl) _)

/-- A text is cut into the words of a phrase that it consists of, and into gaps. -/
theorem exists_cuts_of_spells (spells : Spells ignoreBlanks text words)
    (shown : ∀ w ∈ words, w.IsShown)
    (chain : words.IsChain fun w v => w.allows v = true)
    (apart : words.IsChain fun w v => w.runsInto v = false) (behind : List Char) :
    ∃ pieces, (Entry.tree ignoreBlanks).Cuts ⟨behind, text⟩ pieces ∧
      Entry.readAll pieces = words := by
  induction spells generalizing behind with
  | @ends gap isGap =>
    rw [← List.append_nil gap]
    exact cuts_gap isGap (avoids_end _) fun _ => ⟨[], .done rfl, rfl⟩
  | @word gap text w words isGap rest ih =>
    have hw : w.WellSpelled := (shown w List.mem_cons_self).1
    have hmore : ∀ v ∈ words, v.IsShown := fun v hv => shown v (List.mem_cons_of_mem w hv)
    have havoids : Avoids text w.excludes := by
      refine avoids_of_spells rest (fun v hv => (hmore v hv).1) fun v hv => ?_
      have hv' : v.IsShown := hmore v (List.mem_of_mem_head? hv)
      exact Word.avoids_of_allows hv' ((List.isChain_cons.1 chain).1 v hv)
        ((List.isChain_cons.1 apart).1 v hv)
    have hrest := ih hmore chain.tail apart.tail
    exact cuts_gap isGap (Word.avoids_blanks hw text) (cuts_word hw havoids hrest)

end

end FormulaEngine
