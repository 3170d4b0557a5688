import FormulaEngine.Proofs.Vocabulary

/-!
# Lexing

The spellings of words. A word is read from its text wherever no character follows that would
continue it, and whatever is read from a text is a word with that spelling.
-/
namespace FormulaEngine

open Formula

theorem Rule.body_append (opening closing : String) (text : List Char) :
    body opening closing (opening.toList ++ (text ++ closing.toList)) = String.ofList text := by
  rw [body, Text.between_append]

def Literal.WellSpelled : Literal → Prop
  | integer text => IsRun Fragment.digitChars text.toList
  | decimal text => ∃ whole fraction, text.toList = whole ++ '.' :: fraction ∧
      IsRun Fragment.digitChars whole ∧ IsRun Fragment.digitChars fraction
  | quoted mark text => (mark = "\"" ∧ encloses true '"' '"' text.toList = true) ∨
      (mark = "'" ∧ encloses true '\'' '\'' text.toList = true)
  | boolean _ => True
  | null => True

/-- A key of a letter and key characters, or one between braces. -/
def Reference.WellSpelled (r : Reference) : Prop :=
  (r.opening = "@" ∧ r.closing = "" ∧ ∃ c cs, r.key.toList = c :: cs ∧ c ∈ Fragment.alphaChars ∧
    (cs = [] ∨ IsRun Fragment.keyChars cs)) ∨
  (r.opening = "@\x7b" ∧ r.closing = "\x7d" ∧ IsRun Fragment.bracedKeyChars r.key.toList)

namespace Word

/-- Some signs are written by other words only. -/
def WellSpelled : Word → Prop
  | literal l => l.WellSpelled
  | reference r => r.WellSpelled
  | comment label => encloses false ']' '[' label.toList = true
  | sign s => .sign s ∈ Entry.signs
  | _ => True

def excludes : Word → List Char
  | literal (.integer _) => '.' :: Fragment.digitChars
  | literal (.decimal _) => Fragment.digitChars
  | reference r => if r.closing = "" then Fragment.keyChars else []
  | sign (.before .not) => ['=']
  | sign (.between .below) => ['=']
  | sign (.between .above) => ['=']
  | callee (.many .min) => ['e']
  | callee (.many .max) => ['e']
  | _ => []

def entry : Word → Entry
  | literal (.integer _) => .integer
  | literal (.decimal _) => .decimal
  | literal (.quoted mark _) => .quoted mark (if mark = "'" then "\\'" else "\\\"")
  | reference r => if r.closing = "" then .reference else .bracedReference
  | comment _ => .comment
  | w => .word w

/-- The words that have one spelling only. -/
def fixed : List Word :=
  [opening, closing, separator] ++ Entry.signs ++
  [literal (.boolean true), literal (.boolean false), literal .null] ++ Entry.callees.map callee

end Word

set_option maxRecDepth 100000 in
theorem spells?_fixed (ignoreBlanks : Bool) : ∀ w ∈ Word.fixed,
    (Entry.tree ignoreBlanks).spells? w.excludes w.text.toList = some (.word w) := by
  cases ignoreBlanks <;> decide +kernel

set_option maxRecDepth 100000 in
theorem openFor?_digit (ignoreBlanks : Bool) {c : Char} (hc : c ∈ Fragment.digitChars) :
    Branch.openFor? (Entry.branches ignoreBlanks) c = some Entry.numbers := by
  have hall : Fragment.digitChars.all (fun d =>
      decide (Branch.openFor? (Entry.branches ignoreBlanks) d = some Entry.numbers)) = true := by
    cases ignoreBlanks <;> decide +kernel
  exact of_decide_eq_true (List.all_eq_true.mp hall c hc)

set_option maxRecDepth 100000 in
theorem openFor?_branches (ignoreBlanks : Bool) :
    Branch.openFor? (Entry.branches ignoreBlanks) '"' =
        some (Entry.quote '"' "\"" "\\\"") ∧
      Branch.openFor? (Entry.branches ignoreBlanks) '\'' =
        some (Entry.quote '\'' "'" "\\'") ∧
      Branch.openFor? (Entry.branches ignoreBlanks) '@' = some Entry.references ∧
      Branch.openFor? (Entry.branches ignoreBlanks) '[' = some Entry.comments := by
  cases ignoreBlanks <;> decide +kernel

theorem Avoids.mono {rest excluded fewer : List Char} (avoids : Avoids rest excluded)
    (sub : ∀ c ∈ fewer, c ∈ excluded) : Avoids rest fewer :=
  fun c hc hmem => avoids c hc (sub c hmem)

theorem avoids_cons {c : Char} {excluded : List Char} (h : c ∉ excluded) (rest : List Char) :
    Avoids (c :: rest) excluded := by
  rintro d ⟨⟩
  exact h

namespace Branch

variable {α : Type}

theorem firstAmong?_single (b : Branch α) (c : Cursor) (taken : Nat) :
    firstAmong? [b] c taken = b.first? c taken := by
  rw [firstAmong?, firstAmong?, Option.or_none]

theorem first?_letter (c : Char) (children : List (Branch α)) (behind cs : List Char)
    (taken : Nat) : (letter c children).first? ⟨behind, c :: cs⟩ taken =
      firstAmong? children ⟨c :: behind, cs⟩ (taken + 1) := by
  simp [letter, first?, Step.advance, Matcher.accepts, Cursor.advance, completed?]

theorem first?_final (c : Char) (mark : α) (behind cs : List Char) (taken : Nat) :
    (final c mark []).first? ⟨behind, c :: cs⟩ taken = some (mark, taken + 1) := by
  simp [final, first?, Step.advance, Matcher.accepts, firstAmong?, completed?]

theorem first?_run {allowed cs rest : List Char} (isRun : IsRun allowed cs)
    (avoids : Avoids rest allowed) (mark : Option α) (children : List (Branch α))
    (behind : List Char) (taken : Nat) :
    (run allowed mark children).first? ⟨behind, cs ++ rest⟩ taken =
      (firstAmong? children ⟨cs.reverse ++ behind, rest⟩ (taken + cs.length)).or
        (completed? mark (taken + cs.length)) := by
  simp only [run, first?, advance_runOf isRun avoids, Cursor.advance_append]

theorem first?_enclosed {escaped : Bool} {close previous : Char} {cs : List Char}
    (encloses : encloses escaped close previous cs = true) (mark : α) (behind rest : List Char)
    (taken : Nat) :
    (Branch.node (.stopAt [close] (escapeFor escaped close)) none [final close mark []]).first?
        ⟨previous :: behind, cs ++ close :: rest⟩ taken = some (mark, taken + cs.length + 1) := by
  have hfinal := first?_final close mark (cs.reverse ++ previous :: behind) rest
    (taken + cs.length)
  simp only [first?, Step.advance, findClose_append encloses, Cursor.advance_append, firstAmong?,
    hfinal]
  rfl

end Branch

namespace Entry

theorem first?_tree (ignoreBlanks : Bool) (c : Cursor) :
    (tree ignoreBlanks).first? c 0 = Branch.firstAmong? (branches ignoreBlanks) c 0 := by
  simp [tree, Branch.first?, Step.advance, Cursor.advance, Branch.completed?]

theorem first?_tree_of_openFor? {ignoreBlanks : Bool} {c : Char} {b : Branch Entry}
    (found : Branch.openFor? (branches ignoreBlanks) c = some b) {behind cs : List Char}
    {m : Entry × Nat} (h : b.first? ⟨behind, c :: cs⟩ 0 = some m) :
    (tree ignoreBlanks).first? ⟨behind, c :: cs⟩ 0 = some m := by
  rw [first?_tree, Branch.firstAmong?_of_openFor? found h]

variable (ignoreBlanks : Bool)

theorem first?_tree_of_digits {cs rest : List Char} (isRun : IsRun Fragment.digitChars cs)
    {behind : List Char} {m : Entry × Nat} (h : numbers.first? ⟨behind, cs ++ rest⟩ 0 = some m) :
    (tree ignoreBlanks).first? ⟨behind, cs ++ rest⟩ 0 = some m := by
  obtain ⟨c, cs, rfl⟩ := List.exists_cons_of_ne_nil isRun.1
  exact first?_tree_of_openFor? (openFor?_digit ignoreBlanks (isRun.2.2 c (by simp))) h

theorem first?_integer {cs rest : List Char} (isRun : IsRun Fragment.digitChars cs)
    (avoids : Avoids rest ('.' :: Fragment.digitChars)) (behind : List Char) :
    (tree ignoreBlanks).first? ⟨behind, cs ++ rest⟩ 0 = some (integer, cs.length) := by
  refine first?_tree_of_digits ignoreBlanks isRun ?_
  have hdigits : Avoids rest Fragment.digitChars := avoids.mono fun c hc => by simp [hc]
  have hpoint : Avoids rest ['.'] := avoids.mono fun c hc => by simp_all
  have hpos : 0 < cs.length := List.length_pos_iff.2 isRun.1
  rw [numbers, Branch.first?_run isRun hdigits, Branch.firstAmong?_of_avoids rfl hpoint]
  simp [Branch.completed?, hpos]

theorem first?_decimal {whole fraction rest : List Char} (isWhole : IsRun Fragment.digitChars whole)
    (isFraction : IsRun Fragment.digitChars fraction) (avoids : Avoids rest Fragment.digitChars)
    (behind : List Char) :
    (tree ignoreBlanks).first? ⟨behind, whole ++ '.' :: (fraction ++ rest)⟩ 0 =
      some (decimal, whole.length + 1 + fraction.length) := by
  refine first?_tree_of_digits ignoreBlanks isWhole ?_
  have hpoint : Avoids ('.' :: (fraction ++ rest)) Fragment.digitChars :=
    avoids_cons (by decide) _
  rw [numbers, Branch.first?_run isWhole hpoint, Branch.firstAmong?_single, Branch.first?_letter,
    Branch.firstAmong?_single, Branch.first?_run isFraction avoids]
  simp [Branch.firstAmong?, Branch.completed?]

theorem first?_quote {c : Char} {mark escape : String}
    (found : Branch.openFor? (branches ignoreBlanks) c = some (quote c mark escape))
    {cs : List Char} (encloses : encloses true c c cs = true) (behind rest : List Char) :
    (tree ignoreBlanks).first? ⟨behind, c :: (cs ++ c :: rest)⟩ 0 =
      some (quoted mark escape, cs.length + 2) := by
  refine first?_tree_of_openFor? found ?_
  rw [quote, Branch.first?_letter, Branch.firstAmong?_single, Branch.first?_enclosed encloses]
  congr 2
  omega

theorem first?_comment {cs : List Char} (encloses : encloses false ']' '[' cs = true)
    (behind rest : List Char) :
    (tree ignoreBlanks).first? ⟨behind, '[' :: (cs ++ ']' :: rest)⟩ 0 =
      some (comment, cs.length + 2) := by
  obtain ⟨_, _, _, hcomment⟩ := openFor?_branches ignoreBlanks
  refine first?_tree_of_openFor? hcomment ?_
  rw [comments, Branch.first?_letter, Branch.firstAmong?_single, Branch.first?_enclosed encloses]
  congr 2
  omega

theorem first?_reference {c : Char} {cs rest : List Char} (letter : c ∈ Fragment.alphaChars)
    (isRun : cs = [] ∨ IsRun Fragment.keyChars cs) (avoids : Avoids rest Fragment.keyChars)
    (behind : List Char) :
    (tree ignoreBlanks).first? ⟨behind, '@' :: c :: (cs ++ rest)⟩ 0 =
      some (reference, cs.length + 2) := by
  obtain ⟨_, _, hkey, _⟩ := openFor?_branches ignoreBlanks
  refine first?_tree_of_openFor? hkey ?_
  have hc : (Matcher.anyOf Fragment.alphaChars).accepts c = true := by
    simpa [Matcher.accepts] using letter
  have hrest : (Branch.firstAmong? [Branch.run Fragment.keyChars (some reference) []]
      ⟨c :: '@' :: behind, cs ++ rest⟩ 2).or (Branch.completed? (some reference) 2) =
        some (reference, 2 + cs.length) := by
    rcases isRun with rfl | isRun
    · rw [List.nil_append, Branch.firstAmong?_of_avoids rfl avoids]
      rfl
    · have hpos : 0 < 2 + cs.length := by omega
      rw [Branch.firstAmong?_single, Branch.first?_run isRun avoids]
      simp [Branch.firstAmong?, Branch.completed?, hpos]
  rw [references, Branch.first?_letter, Branch.firstAmong?]
  simp only [Branch.first?, Step.advance, hc, if_true, Cursor.advance, Nat.zero_add, hrest]
  rw [Nat.add_comm]
  rfl

theorem first?_bracedReference {cs : List Char} (isRun : IsRun Fragment.bracedKeyChars cs)
    (behind rest : List Char) :
    (tree ignoreBlanks).first? ⟨behind, '@' :: '\x7b' :: (cs ++ '\x7d' :: rest)⟩ 0 =
      some (bracedReference, cs.length + 3) := by
  obtain ⟨_, _, hkey, _⟩ := openFor?_branches ignoreBlanks
  refine first?_tree_of_openFor? hkey ?_
  have hclose : Avoids ('\x7d' :: rest) Fragment.bracedKeyChars := avoids_cons (by decide) _
  rw [references, Branch.first?_letter, Branch.firstAmong?, Branch.first?_of_blocked
      (Step.advance_of_refuses (by decide) _ _), Branch.firstAmong?_single, Branch.first?_letter,
    Branch.firstAmong?_single, Branch.first?_run isRun hclose, Branch.firstAmong?_single,
    Branch.first?_final]
  simp only [Option.or, Option.some.injEq, Prod.mk.injEq, true_and]
  omega

end Entry

namespace Word

theorem callee_mem_fixed (f : Callee) : callee f ∈ fixed := by
  cases f with
  | one f => cases f <;> decide
  | three f => cases f <;> decide
  | many f => cases f <;> decide

theorem entry_of_mem_fixed : ∀ w ∈ fixed, w.entry = .word w := by decide

theorem wellSpelled_of_mem_fixed (w : Word) (hw : w ∈ fixed) : w.WellSpelled := by
  have hentry := entry_of_mem_fixed w hw
  cases w with
  | literal l => cases l <;> trivial
  | reference r =>
    simp only [entry] at hentry
    split at hentry <;> cases hentry
  | comment label => cases hentry
  | sign s => simpa [fixed, WellSpelled] using hw
  | _ => trivial

theorem first?_fixed (ignoreBlanks : Bool) {w : Word} (hw : w ∈ fixed) {rest : List Char}
    (avoids : Avoids rest w.excludes) (behind : List Char) :
    (Entry.tree ignoreBlanks).first? ⟨behind, w.text.toList ++ rest⟩ 0 =
      some (w.entry, w.text.toList.length) := by
  have hpos : ∀ w ∈ fixed, 0 < w.text.toList.length := by decide
  have hfirst := Branch.first?_of_spells? avoids (spells?_fixed ignoreBlanks w hw) behind 0
    (by simpa using hpos w hw)
  rw [entry_of_mem_fixed w hw, Entry.first?_tree]
  simpa [Branch.completed?] using hfirst

/-- A word is read from its text, whatever comes before it. -/
theorem first?_text (ignoreBlanks : Bool) {w : Word} (hw : w.WellSpelled) {rest : List Char}
    (avoids : Avoids rest w.excludes) (behind : List Char) :
    (Entry.tree ignoreBlanks).first? ⟨behind, w.text.toList ++ rest⟩ 0 =
      some (w.entry, w.text.toList.length) := by
  cases w with
  | literal l =>
    cases l with
    | integer text => exact Entry.first?_integer ignoreBlanks hw avoids behind
    | decimal text =>
      obtain ⟨whole, fraction, htext, hwhole, hfraction⟩ := hw
      have hfirst := Entry.first?_decimal ignoreBlanks hwhole hfraction avoids behind
      simpa [Word.text, Word.entry, Literal.text, htext, Nat.add_assoc, Nat.add_comm 1] using hfirst
    | quoted mark text =>
      obtain ⟨hdouble, hsingle, _⟩ := openFor?_branches ignoreBlanks
      obtain ⟨rfl, hencloses⟩ | ⟨rfl, hencloses⟩ := hw
      · simpa [Word.text, Word.entry, Literal.text] using
          Entry.first?_quote ignoreBlanks hdouble hencloses behind rest
      · simpa [Word.text, Word.entry, Literal.text] using
          Entry.first?_quote ignoreBlanks hsingle hencloses behind rest
    | boolean b => exact first?_fixed ignoreBlanks (by cases b <;> decide) avoids behind
    | null => exact first?_fixed ignoreBlanks (by decide) avoids behind
  | reference r =>
    obtain ⟨opening, key, closing⟩ := r
    obtain ⟨rfl, rfl, c, cs, hkey, hc, hcs⟩ | ⟨rfl, rfl, hkey⟩ := hw
    · simpa [Word.text, Word.entry, hkey] using
        Entry.first?_reference ignoreBlanks hc hcs avoids behind
    · simpa [Word.text, Word.entry] using
        Entry.first?_bracedReference ignoreBlanks hkey behind rest
  | comment label =>
    simpa [Word.text, Word.entry] using Entry.first?_comment ignoreBlanks hw behind rest
  | sign s =>
    refine first?_fixed ignoreBlanks ?_ avoids behind
    simp only [fixed, List.mem_append]
    exact .inl (.inl (.inr hw))
  | callee f => exact first?_fixed ignoreBlanks (callee_mem_fixed f) avoids behind
  | minus => exact first?_fixed ignoreBlanks (by decide) avoids behind
  | opening => exact first?_fixed ignoreBlanks (by decide) avoids behind
  | closing => exact first?_fixed ignoreBlanks (by decide) avoids behind
  | separator => exact first?_fixed ignoreBlanks (by decide) avoids behind

theorem reading_text {w : Word} (hw : w.WellSpelled) :
    w.entry.reading w.text.toList = some w := by
  have hbody : ∀ opening body closing : String,
      Rule.body opening closing (opening ++ body ++ closing).toList = body := by
    intro opening body closing
    rw [String.toList_append, String.toList_append, List.append_assoc, Rule.body_append,
      String.ofList_toList]
  cases w with
  | literal l =>
    cases l with
    | integer text => simp [entry, Entry.reading, Word.text, Literal.text]
    | decimal text => simp [entry, Entry.reading, Word.text, Literal.text]
    | quoted mark text => simp only [entry, Entry.reading, Word.text, Literal.text, hbody]
    | boolean b => rfl
    | null => rfl
  | reference r =>
    obtain ⟨opening, key, closing⟩ := r
    obtain ⟨rfl, rfl, _⟩ | ⟨rfl, rfl, _⟩ := hw
    · simp only [entry, if_true, Entry.reading, Word.text, hbody]
    · have hclosing : ("\x7d" : String) ≠ "" := by decide
      simp only [entry, hclosing, if_false, Entry.reading, Word.text, hbody]
  | comment label => simp only [entry, Entry.reading, Word.text, hbody]
  | _ => rfl

theorem text_ne_nil {w : Word} (hw : w.WellSpelled) : w.text.toList ≠ [] := by
  have hfirst := first?_text false hw (avoids_end w.excludes) []
  exact List.ne_nil_of_length_pos (Branch.pos_of_first? _ hfirst)

end Word

def spelling (words : List Word) : List Char := words.flatMap fun w => w.text.toList

/-- No word is continued by what comes after it. -/
def Spaced : List Word → Prop
  | [] => True
  | w :: words => Avoids (spelling words) w.excludes ∧ Spaced words

/-- Spaced words are cut out of their text one by one. -/
theorem cuts_spelling (ignoreBlanks : Bool) {words : List Word}
    (wellSpelled : ∀ w ∈ words, w.WellSpelled) (spaced : Spaced words) (behind : List Char) :
    (Entry.tree ignoreBlanks).Cuts ⟨behind, spelling words⟩
      (words.map fun w => (w.entry, w.text.toList)) := by
  induction words generalizing behind with
  | nil => exact .done rfl
  | cons w words ih =>
    have hw := wellSpelled w (by simp)
    obtain ⟨havoids, hspaced⟩ := spaced
    have hfirst := w.first?_text ignoreBlanks hw havoids behind
    have hrest := ih (fun v hv => wellSpelled v (by simp [hv])) hspaced
      (w.text.toList.reverse ++ behind)
    rw [← Cursor.advance_append] at hrest
    have hpiece := Branch.Cuts.piece (by simp [Word.text_ne_nil hw]) hfirst hrest
    simpa [spelling] using hpiece

namespace Entry

def paths : Entry → List (List Step)
  | blanks => [[.root, runOf Fragment.blankChars]]
  | integer => [[.root, runOf Fragment.digitChars]]
  | decimal => [[.root, runOf Fragment.digitChars, .one (.char '.'), runOf Fragment.digitChars]]
  | quoted mark _ =>
    if mark = "\"" then
      [[.root, .one (.char '"'), .stopAt ['"'] (escapeFor true '"'), .one (.char '"')]]
    else if mark = "'" then
      [[.root, .one (.char '\''), .stopAt ['\''] (escapeFor true '\''), .one (.char '\'')]]
    else []
  | reference =>
    [ [.root, .one (.char '@'), .one (.anyOf Fragment.alphaChars)],
      [.root, .one (.char '@'), .one (.anyOf Fragment.alphaChars), runOf Fragment.keyChars] ]
  | bracedReference =>
    [[.root, .one (.char '@'), .one (.char '\x7b'), runOf Fragment.bracedKeyChars,
      .one (.char '\x7d')]]
  | comment => [[.root, .one (.char '['), .stopAt [']'] (escapeFor false ']'), .one (.char ']')]]
  | word w => if w ∈ Word.fixed then [.root :: w.text.toList.map fun c => .one (.char c)] else []

set_option maxRecDepth 100000 in
theorem paths_tree (ignoreBlanks : Bool) :
    ∀ p ∈ (tree ignoreBlanks).paths, p.1 ∈ p.2.paths := by
  cases ignoreBlanks <;> decide +kernel

def Accepts : Entry → List Char → Prop
  | blanks, cs => IsRun Fragment.blankChars cs
  | integer, cs => IsRun Fragment.digitChars cs
  | decimal, cs => ∃ whole fraction, cs = whole ++ '.' :: fraction ∧
      IsRun Fragment.digitChars whole ∧ IsRun Fragment.digitChars fraction
  | quoted mark _, cs => ∃ q text, (mark = "\"" ∧ q = '"' ∨ mark = "'" ∧ q = '\'') ∧
      cs = [q] ++ (text ++ [q]) ∧ encloses true q q text = true
  | reference, cs => ∃ c key, cs = ['@'] ++ (c :: key ++ []) ∧ c ∈ Fragment.alphaChars ∧
      (key = [] ∨ IsRun Fragment.keyChars key)
  | bracedReference, cs => ∃ key, cs = ['@', '\x7b'] ++ (key ++ ['\x7d']) ∧
      IsRun Fragment.bracedKeyChars key
  | comment, cs => ∃ label, cs = ['['] ++ (label ++ [']']) ∧ encloses false ']' '[' label = true
  | word w, cs => w ∈ Word.fixed ∧ cs = w.text.toList

theorem accepts_of_steps {e : Entry} {steps : List Step} {behind ahead : List Char} {n : Nat}
    (path : steps ∈ e.paths) (taken : Steps steps ⟨behind, ahead⟩ n) :
    e.Accepts (ahead.take n) := by
  cases e with
  | blanks =>
    obtain rfl := List.mem_singleton.1 path
    exact taken.root_inv.isRun_take
  | integer =>
    obtain rfl := List.mem_singleton.1 path
    exact taken.root_inv.isRun_take
  | decimal =>
    obtain rfl := List.mem_singleton.1 path
    obtain ⟨whole, _, _, rfl, hwhole, rfl, hpoint⟩ := taken.root_inv.runOf_inv
    obtain ⟨_, _, rfl, rfl, hfraction⟩ := hpoint.char_inv
    obtain ⟨fraction, rest, _, rfl, hrun, rfl, hend⟩ := hfraction.runOf_inv
    cases hend
    exact ⟨whole, fraction, by simp [List.take_length_add_append], hwhole, hrun⟩
  | quoted mark escape =>
    simp only [paths] at path
    split at path
    · rename_i hmark
      obtain rfl := List.mem_singleton.1 path
      obtain ⟨text, htext, hencloses⟩ := taken.root_inv.enclosed_take
      exact ⟨'"', text, .inl ⟨hmark, rfl⟩, htext, hencloses⟩
    · split at path
      · rename_i hmark
        obtain rfl := List.mem_singleton.1 path
        obtain ⟨text, htext, hencloses⟩ := taken.root_inv.enclosed_take
        exact ⟨'\'', text, .inr ⟨hmark, rfl⟩, htext, hencloses⟩
      · cases path
  | reference =>
    have hletter : ∀ c, (Matcher.anyOf Fragment.alphaChars).accepts c = true →
        c ∈ Fragment.alphaChars := by
      intro c hc
      simpa [Matcher.accepts] using hc
    rcases List.mem_cons.1 path with rfl | path
    · obtain ⟨_, _, rfl, rfl, hkey⟩ := taken.root_inv.char_inv
      obtain ⟨c, rest, _, rfl, hc, rfl, hend⟩ := hkey.one_inv
      cases hend
      exact ⟨c, [], by simp, hletter c hc, .inl rfl⟩
    · obtain rfl := List.mem_singleton.1 path
      obtain ⟨_, _, rfl, rfl, hkey⟩ := taken.root_inv.char_inv
      obtain ⟨c, _, _, rfl, hc, rfl, hmore⟩ := hkey.one_inv
      obtain ⟨key, rest, _, rfl, hrun, rfl, hend⟩ := hmore.runOf_inv
      cases hend
      exact ⟨c, key, by simp, hletter c hc, .inr hrun⟩
  | bracedReference =>
    obtain rfl := List.mem_singleton.1 path
    obtain ⟨_, _, rfl, rfl, hbrace⟩ := taken.root_inv.char_inv
    obtain ⟨_, _, rfl, rfl, hkey⟩ := hbrace.char_inv
    obtain ⟨key, _, _, rfl, hrun, rfl, hclose⟩ := hkey.runOf_inv
    obtain ⟨rest, _, rfl, rfl, hend⟩ := hclose.char_inv
    cases hend
    exact ⟨key, by simp [List.take_length_add_append], hrun⟩
  | comment =>
    obtain rfl := List.mem_singleton.1 path
    exact taken.root_inv.enclosed_take
  | word w =>
    simp only [paths] at path
    split at path
    · rename_i hw
      obtain rfl := List.mem_singleton.1 path
      exact ⟨hw, taken.root_inv.chars_inv⟩
    · cases path

theorem accepts_of_first? {ignoreBlanks : Bool} {c : Cursor} {e : Entry} {n : Nat}
    (found : (tree ignoreBlanks).first? c 0 = some (e, n)) : e.Accepts (c.ahead.take n) := by
  obtain ⟨steps, k, hpath, htaken, hlength⟩ := Branch.steps_of_first? _ found
  rw [Nat.zero_add] at hlength
  subst hlength
  exact accepts_of_steps (paths_tree ignoreBlanks _ hpath) htaken

theorem wellSpelled_of_reading {e : Entry} {cs : List Char} {w : Word} (accepts : e.Accepts cs)
    (read : e.reading cs = some w) : w.WellSpelled ∧ w.text.toList = cs := by
  cases e with
  | blanks => cases read
  | integer =>
    cases read
    exact ⟨by simpa [Word.WellSpelled, Literal.WellSpelled, Accepts] using accepts,
      by simp [Word.text, Literal.text]⟩
  | decimal =>
    obtain ⟨whole, fraction, rfl, hwhole, hfraction⟩ := accepts
    cases read
    refine ⟨⟨whole, fraction, ?_, hwhole, hfraction⟩, ?_⟩
    · rw [String.toList_ofList]
    · simp only [Word.text, Literal.text, String.toList_ofList]
  | quoted mark escape =>
    obtain ⟨q, text, hmark, rfl, hencloses⟩ := accepts
    obtain hq : [q] = mark.toList := by
      rcases hmark with ⟨rfl, rfl⟩ | ⟨rfl, rfl⟩ <;> rfl
    rw [reading, hq, Rule.body_append] at read
    cases read
    refine ⟨?_, by simp [Word.text, Literal.text, hq]⟩
    rcases hmark with ⟨hmark, rfl⟩ | ⟨hmark, rfl⟩
    · exact .inl ⟨hmark, by rwa [String.toList_ofList]⟩
    · exact .inr ⟨hmark, by rwa [String.toList_ofList]⟩
  | reference =>
    obtain ⟨c, key, rfl, hc, hkey⟩ := accepts
    have hread : Rule.body "@" "" (['@'] ++ (c :: key ++ [])) = String.ofList (c :: key) :=
      Rule.body_append "@" "" (c :: key)
    rw [reading, hread] at read
    cases read
    refine ⟨.inl ⟨rfl, rfl, c, key, ?_, hc, hkey⟩, by simp [Word.text]⟩
    rw [String.toList_ofList]
  | bracedReference =>
    obtain ⟨key, rfl, hrun⟩ := accepts
    have hread : Rule.body "@\x7b" "\x7d" (['@', '\x7b'] ++ (key ++ ['\x7d'])) =
      String.ofList key := Rule.body_append "@\x7b" "\x7d" key
    rw [reading, hread] at read
    cases read
    refine ⟨.inr ⟨rfl, rfl, ?_⟩, by simp [Word.text]⟩
    rwa [String.toList_ofList]
  | comment =>
    obtain ⟨label, rfl, hencloses⟩ := accepts
    have hread : Rule.body "[" "]" (['['] ++ (label ++ [']'])) = String.ofList label :=
      Rule.body_append "[" "]" label
    rw [reading, hread] at read
    cases read
    refine ⟨?_, by simp [Word.text]⟩
    rwa [Word.WellSpelled, String.toList_ofList]
  | word w' =>
    obtain ⟨hw, rfl⟩ := accepts
    cases read
    exact ⟨Word.wellSpelled_of_mem_fixed w hw, rfl⟩

end Entry

theorem wellSpelled_of_first? {ignoreBlanks : Bool} {c : Cursor} {e : Entry} {n : Nat} {w : Word}
    (found : (Entry.tree ignoreBlanks).first? c 0 = some (e, n))
    (read : e.reading (c.ahead.take n) = some w) :
    w.WellSpelled ∧ w.text.toList = c.ahead.take n :=
  Entry.wellSpelled_of_reading (Entry.accepts_of_first? found) read

theorem wellSpelled_of_cuts {ignoreBlanks : Bool} {c : Cursor} {pieces : List (Entry × List Char)}
    (cuts : (Entry.tree ignoreBlanks).Cuts c pieces) :
    ∀ w ∈ Entry.readAll pieces, w.WellSpelled := by
  induction cuts with
  | done => nofun
  | piece _ found _ ih =>
    intro w hw
    rcases List.mem_append.1 hw with hw | hw
    · exact (wellSpelled_of_first? found (Option.mem_toList.1 hw)).1
    · exact ih w hw

theorem readAll_words {words : List Word} (wellSpelled : ∀ w ∈ words, w.WellSpelled) :
    Entry.readAll (words.map fun w => (w.entry, w.text.toList)) = words := by
  induction words with
  | nil => rfl
  | cons w words ih =>
    have hrest := ih fun v hv => wellSpelled v (by simp [hv])
    have hread := Word.reading_text (wellSpelled w (by simp))
    simp only [Entry.readAll, Lexicon.readAll] at hrest ⊢
    simp [hread, hrest]

end FormulaEngine
