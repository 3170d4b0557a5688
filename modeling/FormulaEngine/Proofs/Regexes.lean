import FormulaEngine.Proofs.Globs
import FormulaEngine.Token.Cursor

/-!
# Regular expressions

The anchored regular expression that is written for a pattern: its stars become `.*`, and in all
else the characters with a meaning of their own are escaped. Read again, it covers the texts that
the pattern covers.
-/
namespace FormulaEngine

namespace Regex

/-- The characters that a backslash takes the meaning from. -/
def metaChars : List Char := "\\.+*?()|[]\x7b\x7d^$#&-~".toList

inductive Test where
  | literal (c : Char)
  /-- Any character but a line feed. -/
  | any

inductive Piece where
  | start
  | finish
  | one (t : Test)
  | many (t : Test)

/-- What a character means that no backslash stands before. -/
def meaning? (c : Char) : Option Piece :=
  if c = '^' then some .start
  else if c = '$' then some .finish
  else if c = '.' then some (.one .any)
  else if c ∈ metaChars then none
  else some (.one (.literal c))

/-- Reads a sequence of characters, dots and anchors, where a star repeats what stands before it.
The pieces before the character are listed from the last one on. -/
def readFrom? : (before : List Piece) → (escaped : Bool) → List Char → Option (List Piece)
  | before, false, [] => some before.reverse
  | _, true, [] => none
  | before, true, c :: cs =>
    if c ∈ metaChars then readFrom? (.one (.literal c) :: before) false cs else none
  | before, false, c :: cs =>
    if c = '\\' then readFrom? before true cs
    else if c = '*' then
      match before with
      | .one t :: before => readFrom? (.many t :: before) false cs
      | _ => none
    else
      match meaning? c with
      | some piece => readFrom? (piece :: before) false cs
      | none => none

def read? (text : List Char) : Option (List Piece) := readFrom? [] false text

def Test.admits : Test → Char → Bool
  | literal c, x => c == x
  | any, x => x != '\n'

/-- The pieces cover some of the text from the cursor on. -/
def Matches : List Piece → Cursor → Prop
  | [], _ => True
  | .start :: pieces, c => c.behind = [] ∧ Matches pieces c
  | .finish :: pieces, c => c.ahead = [] ∧ Matches pieces c
  | .one t :: pieces, c =>
    ∃ x rest, c.ahead = x :: rest ∧ t.admits x = true ∧ Matches pieces ⟨x :: c.behind, rest⟩
  | .many t :: pieces, c =>
    ∃ run rest, c.ahead = run ++ rest ∧ (∀ x ∈ run, t.admits x = true) ∧
      Matches pieces ⟨run.reverse ++ c.behind, rest⟩

def FoundIn (pieces : List Piece) (text : List Char) : Prop :=
  ∃ before after, text = before ++ after ∧ Matches pieces ⟨before.reverse, after⟩

def escape (cs : List Char) : List Char :=
  cs.flatMap fun c => if c ∈ metaChars then ['\\', c] else [c]

def literals (cs : List Char) : List Piece := cs.map fun c => .one (.literal c)

theorem readFrom?_escape (before : List Piece) (cs rest : List Char) :
    readFrom? before false (escape cs ++ rest) =
      readFrom? ((literals cs).reverse ++ before) false rest := by
  induction cs generalizing before with
  | nil => rfl
  | cons c cs ih =>
    have hnext : readFrom? before false (escape (c :: cs) ++ rest) =
        readFrom? (.one (.literal c) :: before) false (escape cs ++ rest) := by
      by_cases hc : c ∈ metaChars
      · simp [escape, readFrom?, hc]
      · have hne : ∀ d ∈ metaChars, c ≠ d := fun d hd h => hc (h ▸ hd)
        have hmeaning : meaning? c = some (.one (.literal c)) := by
          simp [meaning?, hc, hne '^' (by decide), hne '$' (by decide), hne '.' (by decide)]
        simp [escape, readFrom?, hc, hmeaning, hne '\\' (by decide), hne '*' (by decide)]
    rw [hnext, ih]
    simp [literals]

theorem matches_literals (cs : List Char) (pieces : List Piece) (behind ahead : List Char) :
    Matches (literals cs ++ pieces) ⟨behind, ahead⟩ ↔
      ∃ rest, ahead = cs ++ rest ∧ Matches pieces ⟨cs.reverse ++ behind, rest⟩ := by
  induction cs generalizing behind ahead with
  | nil => simp [literals]
  | cons c cs ih =>
    have hcons : literals (c :: cs) ++ pieces = .one (.literal c) :: (literals cs ++ pieces) := rfl
    rw [hcons, Matches]
    simp only [ih]
    constructor
    · rintro ⟨x, _, rfl, hx, rest, rfl, hrest⟩
      obtain rfl : c = x := by simpa [Test.admits] using hx
      exact ⟨rest, rfl, by simpa using hrest⟩
    · rintro ⟨rest, rfl, hrest⟩
      exact ⟨c, cs ++ rest, rfl, by simp [Test.admits], rest, rfl, by simpa using hrest⟩

end Regex

namespace Wildcard

open Regex

def written (segments : List (List Char)) : List Char :=
  '^' :: (['.', '*'].intercalate (segments.map escape) ++ ['$'])

def pieces (segments : List (List Char)) : List Piece :=
  .start :: ([.many .any].intercalate (segments.map literals) ++ [.finish])

theorem readFrom?_written (before : List Piece) (segments : List (List Char)) (rest : List Char) :
    readFrom? before false (['.', '*'].intercalate (segments.map escape) ++ rest) =
      readFrom? (([.many .any].intercalate (segments.map literals)).reverse ++ before) false
        rest := by
  induction segments generalizing before with
  | nil => rfl
  | cons s segments ih =>
    cases segments with
    | nil => simpa using readFrom?_escape before s rest
    | cons s' segments =>
      have hstar : ∀ before cs, readFrom? before false ('.' :: '*' :: cs) =
          readFrom? (.many .any :: before) false cs := by
        intro before cs
        simp [readFrom?, meaning?]
      simp only [List.map_cons, List.intercalate_cons_cons, List.append_assoc,
        readFrom?_escape] at ih ⊢
      rw [List.cons_append, List.cons_append, List.nil_append, hstar, ih]
      simp

theorem read?_written (segments : List (List Char)) :
    read? (written segments) = some (pieces segments) := by
  have hstart : ∀ cs, read? ('^' :: cs) = readFrom? [.start] false cs := by
    intro cs
    simp [read?, readFrom?, meaning?]
  rw [written, hstart, readFrom?_written]
  simp [readFrom?, meaning?, pieces]

theorem matches_intercalate (s : List Char) (segments : List (List Char))
    (behind ahead : List Char) :
    Matches ([.many .any].intercalate ((s :: segments).map literals) ++ [.finish])
      ⟨behind, ahead⟩ ↔ Covers (s :: segments) ahead := by
  induction segments generalizing s behind ahead with
  | nil =>
    rw [List.map_singleton, List.intercalate_singleton, matches_literals, covers_single]
    simp [Matches]
  | cons s' segments ih =>
    have hadmits : ∀ run : List Char, (∀ x ∈ run, Test.any.admits x = true) ↔ '\n' ∉ run := by
      intro run
      simp only [Test.admits, bne_iff_ne]
      exact ⟨fun h hmem => h _ hmem rfl, fun h x hx heq => h (heq ▸ hx)⟩
    rw [List.map_cons, List.map_cons, List.intercalate_cons_cons, covers_cons_cons,
      List.append_assoc, List.append_assoc, matches_literals]
    simp only [List.cons_append, List.nil_append, Matches, hadmits]
    constructor
    · rintro ⟨_, rfl, run, rest, rfl, hrun, hrest⟩
      exact ⟨run, rest, rfl, hrun, (ih s' _ rest).1 hrest⟩
    · rintro ⟨run, rest, rfl, hrun, hrest⟩
      exact ⟨run ++ rest, rfl, run, rest, rfl, hrun, (ih s' _ rest).2 hrest⟩

/-- The regular expression is found in the texts that the segments cover. -/
theorem foundIn_pieces_iff {segments : List (List Char)} (ne : segments ≠ []) (text : List Char) :
    FoundIn (pieces segments) text ↔ Covers segments text := by
  obtain ⟨s, segments, rfl⟩ := List.exists_cons_of_ne_nil ne
  rw [← matches_intercalate s segments [] text]
  constructor
  · rintro ⟨before, after, rfl, hstart, hrest⟩
    obtain rfl : before = [] := List.reverse_eq_nil_iff.1 hstart
    exact hrest
  · intro h
    exact ⟨[], text, rfl, rfl, h⟩

end Wildcard

/-- A pattern selects the bound keys that are its segments with a run of characters, of which none
is a line feed, between any two. So does the regular expression that is written for it, and a search
reads the keys that are selected. -/
theorem Context.search_selects_runs (ctx : Context) (pattern : String) :
    (∀ key, key ∈ ctx.keysMatching pattern ↔ key ∈ ctx.keys ∧
      ∃ runs, runs.length + 1 = (pattern.toList.splitOn '*').length ∧ (∀ r ∈ runs, '\n' ∉ r) ∧
        key.toList = Wildcard.woven (pattern.toList.splitOn '*') runs) ∧
    (∃ pieces, Regex.read? (Wildcard.written (pattern.toList.splitOn '*')) = some pieces ∧
      ∀ key, key ∈ ctx.keysMatching pattern ↔ key ∈ ctx.keys ∧ Regex.FoundIn pieces key.toList) ∧
    (∀ found, ctx.search pattern = .ok found → found.map Prod.fst = ctx.keysMatching pattern) ∧
    ∀ e, ctx.search pattern = .error e →
      ∃ key ∈ ctx.keysMatching pattern, ctx.get key = .error e := by
  refine ⟨fun key => mem_keysMatching, ⟨_, Wildcard.read?_written _, fun key => ?_⟩, ?_, ?_⟩
  · rw [Wildcard.foundIn_pieces_iff (List.splitOn_ne_nil '*' pattern.toList)]
    exact mem_keysMatching
  · intro found hfound
    exact (getEach_eq_ok hfound).1
  · intro e hfails
    exact getEach_eq_error hfails

/-- Keys that a run of one character makes of `a*b`. -/
def Sample.separated : Context where
  entries := [("a\nb", .value (.integer 1)), ("a.b", .value (.integer 2))]
  sorted := by decide

/-- The key on two lines is bound, but not selected. -/
theorem Context.search_selects_runs_line_feed :
    "a\nb" ∈ Sample.separated.keys ∧ "a\nb" ∉ Sample.separated.keysMatching "a*b" ∧
      "a.b" ∈ Sample.separated.keysMatching "a*b" := by
  have hsplit : "a*b".toList.splitOn '*' = [['a'], ['b']] := by decide
  obtain ⟨hselects, _⟩ := Sample.separated.search_selects_runs "a*b"
  rw [hsplit] at hselects
  refine ⟨by decide, fun hmem => ?_, (hselects "a.b").2 ⟨by decide, [['.']], rfl, by decide, rfl⟩⟩
  obtain ⟨_, runs, hlength, hlines, htext⟩ := (hselects "a\nb").1 hmem
  obtain ⟨run, rfl⟩ : ∃ run, runs = [run] := List.length_eq_one_iff.1 (Nat.succ.inj hlength)
  have hrun : ['\n', 'b'] = run ++ ['b'] := (List.cons.inj htext).2
  obtain rfl : ['\n'] = run := List.append_cancel_right hrun
  exact hlines _ List.mem_cons_self List.mem_cons_self

end FormulaEngine
