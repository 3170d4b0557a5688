import FormulaEngine.Proofs.Cutting
import FormulaEngine.Proofs.Words

/-!
# Entries

What the lexicon of the formula language holds, under any interpretation of its words. The tree of
its fragments is written out, so that it can be searched without building the lexicon.
-/
namespace FormulaEngine

open Formula

/-- What a piece of a text can be: a word that is always written alike, or one of a class. -/
inductive Entry where
  | blanks
  | integer
  | decimal
  | quoted (mark escape : String)
  | reference
  | bracedReference
  | comment
  | word (w : Word)
  deriving DecidableEq

namespace Entry

def fragment : Entry → Fragment
  | blanks => .blanks
  | integer => .integer
  | decimal => .decimal
  | quoted mark escape => .literal mark.toList mark.toList (some escape.toList)
  | reference => Rule.referenceFragment "@"
  | bracedReference => Rule.bracedFragment "@\x7b" "\x7d"
  | comment => .literal "[".toList "]".toList none
  | word .opening => .just '('
  | word .closing => .just ')'
  | word .separator => .just ','
  | word w => .term w.text.toList

def reading : Entry → Reading Word
  | blanks, _ => none
  | integer, cs => some (.literal (.integer (String.ofList cs)))
  | decimal, cs => some (.literal (.decimal (String.ofList cs)))
  | quoted mark _, cs => some (.literal (.quoted mark (Rule.body mark mark cs)))
  | reference, cs => some (.reference ⟨"@", Rule.body "@" "" cs, ""⟩)
  | bracedReference, cs => some (.reference ⟨"@\x7b", Rule.body "@\x7b" "\x7d" cs, "\x7d"⟩)
  | comment, cs => some (.comment (Rule.body "[" "]" cs))
  | word w, _ => some w

def meaning {V : Type} [Operand V] (i : Interpretation V) (e : Entry) : Reading (Token V) :=
  fun cs => (e.reading cs).map (Word.token i)

def signs : List Word :=
  [ .sign (.between .power),
    .sign (.between .multiply),
    .sign (.between .divide),
    .sign (.between .add),
    .minus,
    .sign (.before .not),
    .sign (.between .dice),
    .sign (.between .below),
    .sign (.between .atMost),
    .sign (.between .above),
    .sign (.between .atLeast),
    .sign (.between .equal),
    .sign (.between .different),
    .sign (.between .both),
    .sign (.between .either) ]

def callees : List Callee :=
  UnaryFunction.all.map .one ++ TernaryFunction.all.map .three ++ VariadicFunction.every.map .many

def listWith (callees : List Callee) (ignoreBlanks : Bool) : List Entry :=
  [decimal, integer, word .opening, word .closing, word .separator] ++
  (if ignoreBlanks then [blanks] else []) ++
  [quoted "\"" "\\\"", quoted "'" "\\'"] ++ signs.map word ++
  [word (.literal (.boolean true)), word (.literal (.boolean false)), word (.literal .null)] ++
  (callees.map fun f => word (.callee f)) ++ [reference, bracedReference, comment]

def list (ignoreBlanks : Bool) : List Entry := listWith callees ignoreBlanks

end Entry

theorem entries_of_rules {V : Type} [Operand V] (o : Options) (i : Interpretation V) :
    (Rule.basics ++ rules o i).filterMap Rule.entry? =
      (Entry.list o.ignoreBlanks).map fun e => (e.fragment, e.meaning i) := by
  obtain ⟨strict, ignoreBlanks⟩ := o
  cases ignoreBlanks <;> rfl

def listOperatorAfter {V : Type} (listOperator : Option (Operator V)) :
    List (Rule V) → Option (Operator V)
  | [] => listOperator
  | .listOperator op :: rules => listOperatorAfter (some op) rules
  | _ :: rules => listOperatorAfter listOperator rules

theorem listOperatorAfter_rules {V : Type} [Operand V] (o : Options) (i : Interpretation V) :
    listOperatorAfter none (Rule.basics ++ rules o i) = some (i.binaryOperator .list) := by
  obtain ⟨strict, ignoreBlanks⟩ := o
  cases ignoreBlanks <;> rfl

/-- A rule sets the list operator, or it adds an entry and leaves the list operator as it is. -/
theorem Rule.cases_entry {V : Type} [Operand V] (r : Rule V) :
    (∃ op, r = .listOperator op) ∨ ∃ f reading, r.entry? = some (f, reading) ∧
      (∀ g : Grammar V, ∀ lexicon, g.lexicon.add f reading = (lexicon, none) →
        g.add r = .ok { g with lexicon }) ∧
      ∀ listOperator rules,
        listOperatorAfter listOperator (r :: rules) = listOperatorAfter listOperator rules := by
  cases r with
  | listOperator op => exact .inl ⟨op, rfl⟩
  | _ =>
    refine .inr ⟨_, _, rfl, fun g lexicon hadd => ?_, fun _ _ => rfl⟩
    simp only [Grammar.add, Rule.entry?, hadd]

/-- Rules are added to a grammar as their entries are to the nodes of its trie. -/
theorem Grammar.extend_ok {V : Type} [Operand V] {α : Type} {meaning : α → Reading (Token V)}
    {rules : List (Rule V)} {entries : List (Fragment × α)}
    (same : rules.filterMap Rule.entry? = entries.map fun e => (e.1, meaning e.2))
    {g : Grammar V} {rows rows' : Rows α} (reads : g.lexicon.Reads rows meaning)
    (inserted : rows.insertAll? entries = some rows') :
    ∃ g', g.extend rules = .ok g' ∧ g'.lexicon.Reads rows' meaning ∧
      g'.listOperator = listOperatorAfter g.listOperator rules := by
  induction rules generalizing g rows entries with
  | nil =>
    obtain rfl : entries = [] := by simpa using same.symm
    cases inserted
    exact ⟨g, rfl, reads, rfl⟩
  | cons r rules ih =>
    rcases r.cases_entry with ⟨op, rfl⟩ | ⟨f, reading, hentry, hg, hop⟩
    · have hg : ({ g with listOperator := some op } : Grammar V).lexicon.Reads rows meaning := reads
      exact ih same hg inserted
    · rw [List.filterMap_cons_some hentry] at same
      obtain ⟨e, entries, rfl⟩ : ∃ e es, entries = e :: es := by
        cases entries with
        | nil => cases same
        | cons e es => exact ⟨e, es, rfl⟩
      obtain ⟨hfirst, hrest⟩ := List.cons.inj same
      obtain ⟨rfl, rfl⟩ := Prod.mk.inj hfirst
      obtain ⟨next, hnext, hinserted⟩ := Option.bind_eq_some_iff.1 inserted
      have hrows : g.lexicon.trie.rows.insert? e.1 (meaning e.2) = some (next.map meaning) := by
        rw [reads, Rows.insert?_map, hnext]
        rfl
      obtain ⟨lexicon, hadd, hreads⟩ := Lexicon.add_of_insert? hrows
      obtain ⟨g', hextend, hlexicon, hlist⟩ := ih (g := { g with lexicon }) hrest hreads hinserted
      exact ⟨g', by simp only [Grammar.extend, hg g lexicon hadd, hextend], hlexicon,
        hlist.trans (hop _ _).symm⟩

end FormulaEngine
