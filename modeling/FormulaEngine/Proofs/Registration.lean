import FormulaEngine.Proofs.Vocabulary
import FormulaEngine.Proofs.Writing

/-!
# The rules of the simplifier

The simplifier lists its rules apart from those that compute with values, and lists the functions in
another order. The words that they are read as and the trie of their fragments are the same.
-/
namespace FormulaEngine

open Formula

/-- The functions in the order of the simplifier. -/
def Entry.writtenCallees : List Callee :=
  UnaryFunction.all.map .one ++ TernaryFunction.all.map .three ++
    [VariadicFunction.min, .max, .sum, .concat, .any, .all].map .many

set_option maxRecDepth 100000 in
theorem Entry.tree_of_written (ignoreBlanks : Bool) :
    (Rows.insertAll? [TrieNode.leaf .root]
      ((Entry.listWith writtenCallees ignoreBlanks).map fun e => (e.fragment, e))).map Rows.tree =
        some (Entry.tree ignoreBlanks) := by
  cases ignoreBlanks
  · decide +kernel
  · decide +kernel

theorem entries_of_symbolRules (o : Options) :
    (Rule.basics ++ Symbol.rules o).filterMap Rule.entry? =
      (Entry.listWith Entry.writtenCallees o.ignoreBlanks).map fun e =>
        (e.fragment, e.meaning Symbol.writing) := by
  obtain ⟨strict, ignoreBlanks⟩ := o
  cases ignoreBlanks <;> rfl

theorem listOperatorAfter_symbolRules (o : Options) :
    listOperatorAfter none (Rule.basics ++ Symbol.rules o) =
      some (Symbol.writing.binaryOperator .list) := by
  obtain ⟨strict, ignoreBlanks⟩ := o
  cases ignoreBlanks <;> rfl

theorem Formula.exists_symbolGrammar (o : Options) :
    ∃ g, symbolGrammar o = .ok g ∧ g.Speaks o.ignoreBlanks Symbol.writing :=
  Grammar.exists_speaks (Entry.tree_of_written o.ignoreBlanks) (entries_of_symbolRules o)
    (listOperatorAfter_symbolRules o)

end FormulaEngine
