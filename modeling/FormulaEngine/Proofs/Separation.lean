import FormulaEngine.Proofs.Gaps
import FormulaEngine.Proofs.Longest

/-!
# Separation

Where blanks are ignored, a text that follows another one after some blanks is read as if it stood
alone. No token looks behind its own first character, and none but the blanks and the enclosed ones
takes a blank: the first are read as nothing, and the others end where their delimiter is.
-/
namespace FormulaEngine

variable {α : Type}

/-- The step takes nothing but characters that it tests one by one, and none of these. -/
def Step.stopsAt (stops : List Char) : Step → Bool
  | .one m => stops.all fun c => !m.accepts c
  | .run m _ _ => stops.all fun c => !m.accepts c
  | _ => false

theorem Step.advance_append {s : Step} {stops rest : List Char} (stopsAt : s.stopsAt stops = true)
    (stop : ∀ c ∈ rest.head?, c ∈ stops) (behind behind' ahead : List Char) :
    s.advance ⟨behind', ahead ++ rest⟩ = s.advance ⟨behind, ahead⟩ := by
  cases s with
  | root => cases stopsAt
  | one m =>
    have hrefused : ∀ c ∈ stops, m.accepts c = false := by simpa [Step.stopsAt] using stopsAt
    cases ahead with
    | cons c ahead => rfl
    | nil =>
      cases rest with
      | nil => rfl
      | cons c rest => simp [advance, hrefused c (stop c rfl)]
  | run m min max =>
    have hrefused : ∀ c ∈ stops, m.accepts c = false := by simpa [Step.stopsAt] using stopsAt
    have hlength := m.runLength_append_of_refused (fun c hc => hrefused c (stop c hc)) max ahead
    simp only [advance, hlength]
  | stopAt close escape => cases stopsAt

namespace Branch

mutual

def stopsAt (stops : List Char) : Branch α → Bool
  | .node s _ children => s.stopsAt stops && allStopAt stops children

def allStopAt (stops : List Char) : List (Branch α) → Bool
  | [] => true
  | b :: bs => b.stopsAt stops && allStopAt stops bs

end

section

variable {stops rest : List Char}

mutual

theorem first?_append (b : Branch α) (stopsAt : b.stopsAt stops = true)
    (stop : ∀ c ∈ rest.head?, c ∈ stops) (behind behind' ahead : List Char) (taken : Nat) :
    b.first? ⟨behind', ahead ++ rest⟩ taken = b.first? ⟨behind, ahead⟩ taken := by
  obtain ⟨s, mark, children⟩ := b
  obtain ⟨hstep, hchildren⟩ := (Bool.and_eq_true _ _).mp stopsAt
  simp only [first?, Step.advance_append hstep stop behind behind' ahead]
  cases hadvance : s.advance ⟨behind, ahead⟩ with
  | blocked => rfl
  | exhausted n => rfl
  | reached n =>
    have hle : n ≤ ahead.length := Step.le_of_advance hadvance
    simp only [Cursor.advance_eq, List.drop_append_of_le_length hle]
    rw [firstAmong?_append children hchildren stop]

theorem firstAmong?_append (bs : List (Branch α)) (stopAt : allStopAt stops bs = true)
    (stop : ∀ c ∈ rest.head?, c ∈ stops) (behind behind' ahead : List Char) (taken : Nat) :
    firstAmong? bs ⟨behind', ahead ++ rest⟩ taken = firstAmong? bs ⟨behind, ahead⟩ taken := by
  cases bs with
  | nil => rfl
  | cons b bs =>
    obtain ⟨hb, hbs⟩ := (Bool.and_eq_true _ _).mp stopAt
    rw [firstAmong?, firstAmong?, first?_append b hb stop behind, firstAmong?_append bs hbs stop]

end

end

theorem exists_of_firstAmong? {bs : List (Branch α)} {c : Cursor} {taken : Nat} {m : α × Nat}
    (h : firstAmong? bs c taken = some m) : ∃ b ∈ bs, b.first? c taken = some m := by
  induction bs with
  | nil => cases h
  | cons b bs ih =>
    rcases Option.or_eq_some_iff.1 h with hfirst | ⟨_, hlater⟩
    · exact ⟨b, by simp, hfirst⟩
    · obtain ⟨b', hb', hfirst⟩ := ih hlater
      exact ⟨b', by simp [hb'], hfirst⟩

theorem firstAmong?_of_mem {bs : List (Branch α)} (forked : areForked bs = true) {b : Branch α}
    (mem : b ∈ bs) {c : Cursor} {taken : Nat} {m : α × Nat} (h : b.first? c taken = some m) :
    firstAmong? bs c taken = some m := by
  induction bs with
  | nil => cases mem
  | cons b' bs ih =>
    obtain ⟨_, hapart, hbs⟩ := areForked_cons forked
    rcases List.mem_cons.1 mem with rfl | mem
    · rw [firstAmong?, h, Option.some_or]
    · rcases Step.advance_of_isApart (hapart b mem) c with hblocked | hblocked
      · rw [firstAmong?, first?_of_blocked hblocked, Option.none_or, ih hbs mem]
      · rw [first?_of_blocked hblocked] at h
        cases h

/-- What is found below the branch is found again after any other text, and with these characters
after it. -/
def EndsBefore (stops : List Char) (b : Branch α) : Prop :=
  ∀ ⦃behind ahead : List Char⦄ ⦃taken : Nat⦄ ⦃m : α × Nat⦄,
    b.first? ⟨behind, ahead⟩ taken = some m → ∀ behind' rest, (∀ c ∈ rest.head?, c ∈ stops) →
      b.first? ⟨behind', ahead ++ rest⟩ taken = some m

theorem endsBefore_of_stopsAt {stops : List Char} {b : Branch α} (h : b.stopsAt stops = true) :
    b.EndsBefore stops := by
  intro behind ahead taken m hfirst behind' rest hstop
  rw [first?_append b h hstop behind, hfirst]

theorem endsBefore_letter (c : Char) {stops : List Char} {children : List (Branch α)}
    (forked : areForked children = true) (ends : ∀ b ∈ children, b.EndsBefore stops) :
    (letter c children).EndsBefore stops := by
  intro behind ahead taken m hfirst behind' rest hstop
  cases ahead with
  | nil => cases hfirst
  | cons x ahead =>
    obtain rfl | hx := eq_or_ne c x
    · rw [first?_letter] at hfirst
      obtain ⟨b, hb, hbelow⟩ := exists_of_firstAmong? hfirst
      rw [List.cons_append, first?_letter]
      exact firstAmong?_of_mem forked hb (ends b hb hbelow (c :: behind') rest hstop)
    · simp [letter, first?, Step.advance, Matcher.accepts, hx] at hfirst

def enclosure (opening close : Char) (escaped : Bool) (mark : α) : Branch α :=
  letter opening [.node (.stopAt [close] (escapeFor escaped close)) none [final close mark []]]

theorem endsBefore_enclosure (opening close : Char) (escaped : Bool) (mark : α)
    (stops : List Char) : (enclosure opening close escaped mark).EndsBefore stops := by
  rintro behind ahead taken ⟨e, length⟩ hfirst behind' rest _
  obtain ⟨steps, n, hpath, hsteps, rfl⟩ := steps_of_first? _ hfirst
  obtain ⟨rfl, rfl⟩ := Prod.mk.inj (List.mem_singleton.1 hpath)
  obtain ⟨_, _, rfl, rfl, henclosed⟩ := hsteps.char_inv
  obtain ⟨cs, after, rfl, rfl, hencloses⟩ := henclosed.enclosed_inv
  simp only [enclosure, List.cons_append, List.append_assoc]
  rw [first?_letter, firstAmong?_single, first?_enclosed hencloses]
  congr 2
  omega

theorem endsBefore_closedRun {allowed : List Char} {close : Char} (outside : close ∉ allowed)
    (mark : α) (stops : List Char) :
    (run allowed none [final close mark []]).EndsBefore stops := by
  rintro behind ahead taken ⟨e, length⟩ hfirst behind' rest _
  obtain ⟨steps, n, hpath, hsteps, rfl⟩ := steps_of_first? _ hfirst
  obtain ⟨rfl, rfl⟩ := Prod.mk.inj (List.mem_singleton.1 hpath)
  obtain ⟨cs, _, _, rfl, hrun, rfl, hclose⟩ := hsteps.runOf_inv
  obtain ⟨after, _, rfl, rfl, hend⟩ := hclose.char_inv
  cases hend
  rw [List.append_assoc, List.cons_append, first?_run hrun (avoids_cons outside _),
    firstAmong?_single, first?_final]
  simp only [Option.some_or, Option.some.injEq, Prod.mk.injEq, true_and]
  omega

theorem le_of_first? {b : Branch α} {c : Cursor} {e : α} {n : Nat}
    (h : b.first? c 0 = some (e, n)) : n ≤ c.ahead.length := by
  obtain ⟨steps, k, _, hsteps, rfl⟩ := steps_of_first? b h
  rw [Nat.zero_add]
  exact hsteps.le_length_ahead

end Branch

namespace Entry

open Branch

def enclosures : List (Branch Entry) :=
  [enclosure '"' '"' true (quoted "\"" "\\\""), enclosure '\'' '\'' true (quoted "'" "\\'"),
    enclosure '[' ']' false comment]

set_option maxRecDepth 100000 in
theorem branches_cases : ∀ b ∈ branches true, b = run Fragment.blankChars (some blanks) [] ∨
    b ∈ references :: enclosures ∨ b.stopsAt Fragment.blankChars = true := by
  decide +kernel

theorem endsBefore_references : references.EndsBefore Fragment.blankChars := by
  have hbraced : (letter '\x7b' [run Fragment.bracedKeyChars none
      [final '\x7d' bracedReference []]]).EndsBefore Fragment.blankChars := by
    refine endsBefore_letter _ (by decide) fun b hb => ?_
    obtain rfl := List.mem_singleton.1 hb
    exact endsBefore_closedRun (by decide) _ _
  refine endsBefore_letter _ (by decide) fun b hb => ?_
  rcases List.mem_cons.1 hb with rfl | hb
  · exact endsBefore_of_stopsAt (by decide)
  · obtain rfl := List.mem_singleton.1 hb
    exact hbraced

/-- Of all that a token can begin with, only a run of blanks goes on with a blank. -/
theorem endsBefore_branches : ∀ b ∈ branches true,
    b = run Fragment.blankChars (some blanks) [] ∨ b.EndsBefore Fragment.blankChars := by
  intro b hb
  rcases branches_cases b hb with hblanks | henclosed | hstops
  · exact .inl hblanks
  · refine .inr ?_
    simp only [enclosures, List.mem_cons, List.not_mem_nil, or_false] at henclosed
    rcases henclosed with rfl | rfl | rfl | rfl
    · exact endsBefore_references
    · exact endsBefore_enclosure _ _ _ _ _
    · exact endsBefore_enclosure _ _ _ _ _
    · exact endsBefore_enclosure _ _ _ _ _
  · exact .inr (endsBefore_of_stopsAt hstops)

/-- A token is read alike wherever it stands and whatever is added after it, at the end of the text
or, unless the token is a run of blanks itself, before a blank. -/
theorem first?_append {behind ahead rest : List Char} {e : Entry} {n : Nat}
    (found : (tree true).first? ⟨behind, ahead⟩ 0 = some (e, n))
    (seam : rest = [] ∨ e ≠ blanks ∧ ∀ c ∈ rest.head?, c ∈ Fragment.blankChars)
    (behind' : List Char) :
    (tree true).first? ⟨behind', ahead ++ rest⟩ 0 = some (e, n) := by
  have hforked : areForked (branches true) = true := isForked_tree true
  rw [first?_tree] at found ⊢
  obtain ⟨b, hb, hfirst⟩ := exists_of_firstAmong? found
  refine firstAmong?_of_mem hforked hb ?_
  rcases endsBefore_branches b hb with rfl | hends
  · rcases seam with rfl | ⟨hne, _⟩
    · have hends : (run Fragment.blankChars (some blanks) []).EndsBefore [] :=
        endsBefore_of_stopsAt rfl
      exact hends hfirst behind' [] nofun
    · obtain ⟨steps, _, hpath, _⟩ := steps_of_first? _ hfirst
      exact absurd (Prod.mk.inj (List.mem_singleton.1 hpath)).2 hne
  · refine hends hfirst behind' rest ?_
    rcases seam with rfl | ⟨_, hblank⟩
    · nofun
    · exact hblank

theorem exists_first?_blanks {c : Char} (blank : c ∈ Fragment.blankChars)
    (behind cs : List Char) :
    ∃ n, (tree true).first? ⟨behind, c :: cs⟩ 0 = some (blanks, n) ∧
      ∀ d ∈ (c :: cs).take n, d ∈ Fragment.blankChars := by
  have hc : (Matcher.anyOf Fragment.blankChars).accepts c = true := by
    simpa [Matcher.accepts] using blank
  obtain ⟨n, hadvance, hpos⟩ : ∃ n, (runOf Fragment.blankChars).advance ⟨behind, c :: cs⟩ =
      .reached n ∧ 0 < n := by
    simp only [runOf, Step.advance, Fragment.unbounded, Matcher.runLength, hc, if_true]
    rw [if_neg (by omega)]
    exact ⟨_, rfl, by omega⟩
  have hfirst : (run Fragment.blankChars (some blanks) []).first? ⟨behind, c :: cs⟩ 0 =
      some (blanks, n) := by
    simp [run, first?, hadvance, firstAmong?, completed?, hpos]
  exact ⟨n, first?_tree_of_openFor? (openFor?_blank blank) hfirst, (isRun_of_advance hadvance).2.2⟩

end Entry

def IsReadAs (text : List Char) (words : List Word) : Prop :=
  ∃ pieces, (Entry.tree true).Cuts (.start text) pieces ∧ Entry.readAll pieces = words

theorem cuts_behind {c : Cursor} {pieces : List (Entry × List Char)}
    (cuts : (Entry.tree true).Cuts c pieces) (behind : List Char) :
    (Entry.tree true).Cuts ⟨behind, c.ahead⟩ pieces := by
  induction cuts generalizing behind with
  | done atEnd => exact .done atEnd
  | @piece c mark n pieces more found _ ih =>
    have hfound := Entry.first?_append found (.inl rfl) behind
    rw [List.append_nil] at hfound
    refine .piece (c := ⟨behind, c.ahead⟩) more hfound ?_
    simpa [Cursor.advance_eq] using ih ((c.ahead.take n).reverse ++ behind)

theorem isReadAs_iff_of_first? {text : List Char} {e : Entry} {n : Nat}
    (found : (Entry.tree true).first? (.start text) 0 = some (e, n)) {words : List Word} :
    IsReadAs text words ↔
      ∃ rest, IsReadAs (text.drop n) rest ∧ words = (e.reading (text.take n)).toList ++ rest := by
  have hpos : 0 < n := Branch.pos_of_first? _ found
  have hle : n ≤ text.length := Branch.le_of_first? found
  have hne : text ≠ [] := List.ne_nil_of_length_pos (by omega)
  constructor
  · rintro ⟨pieces, hcuts, rfl⟩
    cases hcuts with
    | done atEnd => exact absurd atEnd hne
    | @piece _ _ _ pieces _ found' hrest =>
      cases found.symm.trans found'
      have hrest := cuts_behind hrest []
      rw [Cursor.advance_eq] at hrest
      exact ⟨Entry.readAll pieces, ⟨pieces, hrest, rfl⟩, rfl⟩
  · rintro ⟨rest, ⟨pieces, hcuts, rfl⟩, rfl⟩
    have hrest : (Entry.tree true).Cuts ((Cursor.start text).advance n) pieces := by
      simpa [Cursor.advance_eq, Cursor.start] using cuts_behind hcuts (text.take n).reverse
    exact ⟨_, .piece hne found hrest, rfl⟩

theorem isReadAs_dropWhile (text : List Char) (words : List Word) :
    IsReadAs (text.dropWhile fun c => c ∈ Fragment.blankChars) words ↔ IsReadAs text words := by
  -- A run is bounded, so that the blanks may be more than one token.
  induction hlength : text.length using Nat.strongRecOn generalizing text with
  | _ length ih =>
    cases text with
    | nil => rfl
    | cons c cs =>
      by_cases hblank : c ∈ Fragment.blankChars
      · obtain ⟨n, hfound, htake⟩ := Entry.exists_first?_blanks hblank [] cs
        have hpos : 0 < n := Branch.pos_of_first? _ hfound
        have hshorter : ((c :: cs).drop n).length < length := by
          rw [← hlength, List.length_drop, List.length_cons]
          omega
        have hdrop : (c :: cs).dropWhile (fun c => c ∈ Fragment.blankChars) =
            ((c :: cs).drop n).dropWhile fun c => c ∈ Fragment.blankChars := by
          conv_lhs => rw [← List.take_append_drop n (c :: cs)]
          exact List.dropWhile_append_of_pos fun d hd => decide_eq_true (htake d hd)
        rw [hdrop, ih _ hshorter _ rfl, isReadAs_iff_of_first? hfound]
        simp [Entry.reading]
      · rw [List.dropWhile_cons_of_neg (by simpa using hblank)]

theorem isReadAs_blanks_append {gap : List Char} (blank : ∀ c ∈ gap, c ∈ Fragment.blankChars)
    (text : List Char) (words : List Word) : IsReadAs (gap ++ text) words ↔ IsReadAs text words := by
  rw [← isReadAs_dropWhile, List.dropWhile_append_of_pos fun c hc => decide_eq_true (blank c hc),
    isReadAs_dropWhile]

theorem isReadAs_append_of_cuts {rest : List Char} {more : List Word} (later : IsReadAs rest more)
    (seam : ∀ c ∈ rest.head?, c ∈ Fragment.blankChars) {c : Cursor}
    {pieces : List (Entry × List Char)} (cuts : (Entry.tree true).Cuts c pieces) :
    IsReadAs (c.ahead ++ rest) (Entry.readAll pieces ++ more) := by
  induction cuts with
  | done atEnd =>
    rw [atEnd]
    exact later
  | @piece c e n pieces _ found _ ih =>
    have hle : n ≤ c.ahead.length := Branch.le_of_first? found
    rw [Cursor.advance_eq] at ih
    by_cases hblanks : e = .blanks
    · subst hblanks
      have hrun : IsRun Fragment.blankChars (c.ahead.take n) := Entry.accepts_of_first? found
      have happend := (isReadAs_blanks_append hrun.2.2 _ _).2 ih
      rw [← List.append_assoc, List.take_append_drop] at happend
      exact happend
    · have hfound := Entry.first?_append found (.inr ⟨hblanks, seam⟩) []
      refine (isReadAs_iff_of_first? hfound).2 ⟨Entry.readAll pieces ++ more, ?_, ?_⟩
      · rw [List.drop_append_of_le_length hle]
        exact ih
      · rw [List.take_append_of_le_length hle, ← List.append_assoc]
        rfl

theorem IsReadAs.append {text rest : List Char} {words more : List Word}
    (first : IsReadAs text words) (later : IsReadAs rest more)
    (seam : ∀ c ∈ rest.head?, c ∈ Fragment.blankChars) :
    IsReadAs (text ++ rest) (words ++ more) := by
  obtain ⟨pieces, hcuts, rfl⟩ := first
  exact isReadAs_append_of_cuts later seam hcuts

theorem Grammar.Speaks.tokenize_eq_ok_iff {V : Type} [Operand V] {g : Grammar V}
    {i : Formula.Interpretation V} (speaks : g.Speaks true i) {text : String}
    {tokens : List (Token V)} : g.tokenize text = .ok tokens ↔
      ∃ words, IsReadAs text.toList words ∧ tokens = words.map (Word.token i) := by
  obtain ⟨rows, htree, hreads, _⟩ := speaks
  unfold Grammar.tokenize
  rw [Lexicon.scan_eq_ok_iff hreads, htree]
  simp only [readAll_meaning]
  constructor
  · rintro ⟨pieces, hcuts, rfl⟩
    exact ⟨_, ⟨pieces, hcuts, rfl⟩, rfl⟩
  · rintro ⟨_, ⟨pieces, hcuts, rfl⟩, rfl⟩
    exact ⟨pieces, hcuts, rfl⟩

/-- Blanks separate the tokens before them from those after them, and are read as nothing. -/
theorem Formula.blanks_separate_tokens (o : Options) (ignored : o.ignoreBlanks = true) :
    ∃ g, grammar o = .ok g ∧ ∀ (a w b : String) (before after : List (Token Value)), w ≠ "" →
      (∀ c ∈ w.toList, c ∈ [' ', '\t', '\r', '\n']) → g.tokenize a = .ok before →
        g.tokenize b = .ok after → g.tokenize (a ++ w ++ b) = .ok (before ++ after) := by
  obtain ⟨g, hbuild, hspeaks⟩ := exists_grammar o (arithmetic o.strict)
  rw [ignored] at hspeaks
  refine ⟨g, hbuild, fun a w b before after hne hblank ha hb => ?_⟩
  obtain ⟨words, hwords, rfl⟩ := hspeaks.tokenize_eq_ok_iff.1 ha
  obtain ⟨more, hmore, rfl⟩ := hspeaks.tokenize_eq_ok_iff.1 hb
  have hgap : IsReadAs (w.toList ++ b.toList) more := (isReadAs_blanks_append hblank _ _).2 hmore
  have hseam : ∀ c ∈ (w.toList ++ b.toList).head?, c ∈ Fragment.blankChars := by
    obtain ⟨d, ds, hw⟩ := List.exists_cons_of_ne_nil fun h => hne (String.toList_eq_nil_iff.1 h)
    rw [hw] at hblank ⊢
    rintro c ⟨⟩
    exact hblank d List.mem_cons_self
  refine hspeaks.tokenize_eq_ok_iff.2 ⟨words ++ more, ?_, (List.map_append ..).symm⟩
  rw [String.toList_append, String.toList_append, List.append_assoc]
  exact hwords.append hgap hseam

/-- A key may contain blanks, and no letter after them belongs to it. -/
theorem Formula.blanks_separate_tokens_key :
    ∃ g, grammar ⟨false, true⟩ = .ok g ∧
      g.tokenize ("@\x7ba b\x7d" ++ "\t\n" ++ "min") =
        .ok ([Word.token (arithmetic false) (.reference ⟨"@\x7b", "a b", "\x7d"⟩)] ++
          [Word.token (arithmetic false) (.callee (.many .min))]) := by
  obtain ⟨g, hbuild, hseparates⟩ := blanks_separate_tokens ⟨false, true⟩ rfl
  obtain ⟨g', hbuild', hspeaks⟩ := exists_grammar ⟨false, true⟩ (arithmetic false)
  obtain rfl : g = g' := Except.ok.inj (hbuild.symm.trans hbuild')
  have hread : ∀ w : Word, w.WellSpelled →
      g.tokenize w.text = .ok [w.token (arithmetic false)] := by
    intro w hw
    have hwords : ∀ v ∈ [w], v.WellSpelled := by simpa using hw
    have hcuts := cuts_spelling true hwords ⟨avoids_end _, trivial⟩ []
    refine hspeaks.tokenize_eq_ok_iff.2 ⟨[w], ⟨_, ?_, readAll_words hwords⟩, rfl⟩
    simpa [spelling, Cursor.start] using hcuts
  have hkey : g.tokenize "@\x7ba b\x7d" =
      .ok [Word.token (arithmetic false) (.reference ⟨"@\x7b", "a b", "\x7d"⟩)] :=
    hread (.reference ⟨"@\x7b", "a b", "\x7d"⟩)
      (.inr ⟨rfl, rfl, by decide⟩)
  have hmin : g.tokenize "min" = .ok [Word.token (arithmetic false) (.callee (.many .min))] :=
    hread (.callee (.many .min)) trivial
  exact ⟨g, hbuild, hseparates _ "\t\n" _ _ _ (by decide) (by simp) hkey hmin⟩

end FormulaEngine
