import FormulaEngine.Proofs.Entries
import FormulaEngine.Proofs.Steps

/-!
# The vocabulary

The trie of the formula language, written out.
-/
namespace FormulaEngine

open Formula

namespace Branch

mutual

def decEq {α : Type} [DecidableEq α] : (a b : Branch α) → Decidable (a = b)
  | .node s m bs, .node s' m' bs' =>
    match (inferInstance : Decidable (s = s')), (inferInstance : Decidable (m = m')),
      decEqAll bs bs' with
    | .isTrue hs, .isTrue hm, .isTrue hbs => .isTrue (by rw [hs, hm, hbs])
    | .isFalse hs, _, _ => .isFalse fun h => hs (by injection h)
    | _, .isFalse hm, _ => .isFalse fun h => hm (by injection h)
    | _, _, .isFalse hbs => .isFalse fun h => hbs (by injection h)

def decEqAll {α : Type} [DecidableEq α] : (as bs : List (Branch α)) → Decidable (as = bs)
  | [], [] => .isTrue rfl
  | a :: as, b :: bs =>
    match decEq a b, decEqAll as bs with
    | .isTrue h, .isTrue hs => .isTrue (by rw [h, hs])
    | .isFalse h, _ => .isFalse fun e => h (by injection e)
    | _, .isFalse hs => .isFalse fun e => hs (by injection e)
  | [], _ :: _ => .isFalse nofun
  | _ :: _, [] => .isFalse nofun

end

instance {α : Type} [DecidableEq α] : DecidableEq (Branch α) := decEq

def letter {α : Type} (c : Char) (children : List (Branch α)) : Branch α :=
  .node (.one (.char c)) none children

def final {α : Type} (c : Char) (mark : α) (children : List (Branch α)) : Branch α :=
  .node (.one (.char c)) (some mark) children

def tail {α : Type} (c : Char) (cs : List Char) (mark : α) : Branch α :=
  match cs with
  | [] => final c mark []
  | d :: cs => letter c [tail d cs mark]

def run {α : Type} (allowed : List Char) (mark : Option α) (children : List (Branch α)) :
    Branch α :=
  .node (runOf allowed) mark children

end Branch

namespace Entry

open Branch

def sign (op : BinaryOperator) : Entry := .word (.sign (.between op))

def one (f : UnaryFunction) : Entry := .word (.callee (.one f))

def three (f : TernaryFunction) : Entry := .word (.callee (.three f))

def many (f : VariadicFunction) : Entry := .word (.callee (.many f))

/-- A text between quotation marks, where a backslash escapes the mark. -/
def quote (c : Char) (mark escape : String) : Branch Entry :=
  letter c [.node (.stopAt [c] (escapeFor true c)) none [final c (quoted mark escape) []]]

def numbers : Branch Entry :=
  run Fragment.digitChars (some integer)
    [letter '.' [run Fragment.digitChars (some decimal) []]]

def references : Branch Entry :=
  letter '@' [
    .node (.one (.anyOf Fragment.alphaChars)) (some reference)
      [run Fragment.keyChars (some reference) []],
    letter '\x7b' [run Fragment.bracedKeyChars none [final '\x7d' bracedReference []]] ]

def comments : Branch Entry :=
  letter '[' [.node (.stopAt [']'] (escapeFor false ']')) none [final ']' comment []]]

def branches (ignoreBlanks : Bool) : List (Branch Entry) :=
  [ numbers,
    final '(' (word .opening) [],
    final ')' (word .closing) [],
    final ',' (word .separator) [] ] ++
    (if ignoreBlanks then [run Fragment.blankChars (some blanks) []] else []) ++
    [ quote '"' "\"" "\\\"",
      quote '\'' "'" "\\'",
      final '^' (sign .power) [],
      final '*' (sign .multiply) [],
      final '/' (sign .divide) [],
      final '+' (sign .add) [],
      final '-' (word .minus) [],
      final '!' (word (.sign (.before .not))) [final '=' (sign .different) []],
      final 'd' (sign .dice) [],
      final '<' (sign .below) [final '=' (sign .atMost) []],
      final '>' (sign .above) [final '=' (sign .atLeast) []],
      tail '=' ['='] (sign .equal),
      tail 'A' ['N', 'D'] (sign .both),
      tail 'O' ['R'] (sign .either),
      tail 't' ['r', 'u', 'e'] (word (.literal (.boolean true))),
      letter 'f' [
        tail 'a' ['l', 's', 'e'] (word (.literal (.boolean false))),
        tail 'l' ['o', 'o', 'r'] (one .floor) ],
      tail 'n' ['u', 'l', 'l'] (word (.literal .null)),
      letter 'a' [
        tail 'b' ['s'] (one .abs),
        tail 'n' ['y'] (many .any),
        tail 'l' ['l'] (many .all) ],
      letter 'c' [
        tail 'e' ['i', 'l'] (one .ceil),
        tail 'l' ['a', 'm', 'p'] (three .clamp),
        tail 'o' ['n', 'c', 'a', 't'] (many .concat) ],
      letter 's' [
        tail 'i' ['g', 'n', 'e', 'd'] (one .signed),
        tail 'u' ['m'] (many .sum) ],
      tail 'o' ['r', 'd', 'i', 'n', 'a', 'l'] (one .ordinal),
      letter 'm' [
        letter 'i' [final 'n' (many .min) [tail 'e' ['a', 'c', 'h'] (one .minEach)]],
        letter 'a' [final 'x' (many .max) [tail 'e' ['a', 'c', 'h'] (one .maxEach)]] ],
      tail 'i' ['f'] (three .choose),
      references,
      comments ]

def tree (ignoreBlanks : Bool) : Branch Entry := .node .root none (branches ignoreBlanks)

end Entry

set_option maxRecDepth 100000 in
theorem Entry.tree_of_list (ignoreBlanks : Bool) :
    (Rows.insertAll? [TrieNode.leaf .root]
      ((Entry.list ignoreBlanks).map fun e => (e.fragment, e))).map Rows.tree =
        some (Entry.tree ignoreBlanks) := by
  cases ignoreBlanks
  · decide +kernel
  · decide +kernel

def Entry.readAll (pieces : List (Entry × List Char)) : List Word :=
  Lexicon.readAll Entry.reading pieces

theorem readAll_meaning {V : Type} [Operand V] (i : Interpretation V)
    (pieces : List (Entry × List Char)) :
    Lexicon.readAll (Entry.meaning i) pieces = (Entry.readAll pieces).map (Word.token i) := by
  simp only [Lexicon.readAll, Entry.readAll, List.map_flatMap]
  congr 1
  funext p
  simp only [Entry.meaning]
  cases p.1.reading p.2 <;> rfl

/-- The tokens of a grammar are the words of the language, read under an interpretation. -/
def Grammar.Speaks {V : Type} [Operand V] (g : Grammar V) (ignoreBlanks : Bool)
    (i : Interpretation V) : Prop :=
  ∃ rows : Rows Entry, rows.tree = Entry.tree ignoreBlanks ∧
    g.lexicon.Reads rows (Entry.meaning i) ∧ g.listOperator = some (i.binaryOperator .list)

theorem Grammar.exists_speaks {V : Type} [Operand V] {i : Interpretation V} {ignoreBlanks : Bool}
    {entries : List Entry} {rules : List (Rule V)}
    (tree : (Rows.insertAll? [TrieNode.leaf .root]
      (entries.map fun e => (e.fragment, e))).map Rows.tree = some (Entry.tree ignoreBlanks))
    (same : (Rule.basics ++ rules).filterMap Rule.entry? =
      entries.map fun e => (e.fragment, e.meaning i))
    (lists : listOperatorAfter none (Rule.basics ++ rules) = some (i.binaryOperator .list)) :
    ∃ g, Grammar.build rules = .ok g ∧ g.Speaks ignoreBlanks i := by
  obtain ⟨rows, hrows, htree⟩ := Option.map_eq_some_iff.1 tree
  have hempty : (Grammar.empty : Grammar V).lexicon.Reads [TrieNode.leaf .root]
      (Entry.meaning i) := rfl
  have hentries : (Rule.basics ++ rules).filterMap Rule.entry? =
      (entries.map fun e => (e.fragment, e)).map fun e => (e.1, e.2.meaning i) := by
    rw [same, List.map_map]
    rfl
  obtain ⟨g, hbuild, hreads, hlist⟩ := Grammar.extend_ok hentries hempty hrows
  exact ⟨g, hbuild, rows, htree, hreads, hlist.trans lists⟩

/-- All interpretations give grammars of the language. -/
theorem Formula.exists_grammar (o : Options) {V : Type} [Operand V] (i : Interpretation V) :
    ∃ g, Grammar.build (rules o i) = .ok g ∧ g.Speaks o.ignoreBlanks i :=
  Grammar.exists_speaks (Entry.tree_of_list o.ignoreBlanks) (entries_of_rules o i)
    (listOperatorAfter_rules o i)

namespace Grammar.Speaks

variable {V : Type} [Operand V] {i : Interpretation V} {g : Grammar V} {ignoreBlanks : Bool}

theorem compile_eq_ok_iff (speaks : g.Speaks ignoreBlanks i) {text : String} {p : Program V} :
    g.compile text = .ok p ↔
      ∃ pieces, (Entry.tree ignoreBlanks).Cuts (.start text.toList) pieces ∧
        p = ⟨toPostfix (some (i.binaryOperator .list))
          ((Entry.readAll pieces).map (Word.token i)), text⟩ := by
  obtain ⟨rows, htree, hreads, hlist⟩ := speaks
  have hscan : ∀ tokens, g.lexicon.scan text = .ok tokens ↔
      ∃ pieces, rows.tree.Cuts (.start text.toList) pieces ∧
        tokens = Lexicon.readAll (Entry.meaning i) pieces :=
    fun _ => Lexicon.scan_eq_ok_iff hreads
  unfold Grammar.compile Grammar.tokenize
  constructor
  · intro h
    split at h
    · cases h
    · rename_i tokens htokens
      cases h
      obtain ⟨pieces, hpieces, rfl⟩ := (hscan tokens).1 htokens
      exact ⟨pieces, htree ▸ hpieces, by rw [hlist, readAll_meaning]⟩
  · rintro ⟨pieces, hpieces, rfl⟩
    rw [(hscan _).2 ⟨pieces, htree ▸ hpieces, rfl⟩, hlist, readAll_meaning]

theorem compile_eq_error_iff (speaks : g.Speaks ignoreBlanks i) {text : String} {e : ParseError} :
    g.compile text = .error e ↔
      ∃ d, (Entry.tree ignoreBlanks).Stalls (.start text.toList) d ∧
        e = ⟨text, d.index, d.ahead.headD ' '⟩ := by
  obtain ⟨rows, htree, hreads, _⟩ := speaks
  rw [← htree, ← Lexicon.scan_eq_error_iff hreads, Grammar.compile, Grammar.tokenize]
  cases g.lexicon.scan text <;> simp

end Grammar.Speaks

end FormulaEngine
