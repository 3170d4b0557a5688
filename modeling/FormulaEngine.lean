import FormulaEngine.Arena
import FormulaEngine.Context.Basic
import FormulaEngine.Context.Binding
import FormulaEngine.Context.Resolve
import FormulaEngine.Context.Update
import FormulaEngine.Context.Wildcard
import FormulaEngine.Decimal.Basic
import FormulaEngine.Decimal.Exact
import FormulaEngine.Decimal.Reading
import FormulaEngine.Decimal.Shortest
import FormulaEngine.Decimal.Text
import FormulaEngine.Error
import FormulaEngine.Formula.Arithmetic
import FormulaEngine.Formula.Basic
import FormulaEngine.Formula.Flatten
import FormulaEngine.Formula.Literal
import FormulaEngine.Formula.Vocabulary
import FormulaEngine.Grammar.Basic
import FormulaEngine.Grammar.Describe
import FormulaEngine.Grammar.Postfix
import FormulaEngine.Grammar.Token
import FormulaEngine.Integer
import FormulaEngine.Json.Basic
import FormulaEngine.Json.Number
import FormulaEngine.Json.Read
import FormulaEngine.Program.Basic
import FormulaEngine.Program.Machine
import FormulaEngine.Proofs.Agreement
import FormulaEngine.Proofs.Arities
import FormulaEngine.Proofs.Attaching
import FormulaEngine.Proofs.Boundaries
import FormulaEngine.Proofs.Bracketing
import FormulaEngine.Proofs.Branches
import FormulaEngine.Proofs.Calculation
import FormulaEngine.Proofs.Comparisons
import FormulaEngine.Proofs.Compiling
import FormulaEngine.Proofs.Conversion
import FormulaEngine.Proofs.Coverage
import FormulaEngine.Proofs.Cutting
import FormulaEngine.Proofs.Denotation
import FormulaEngine.Proofs.Denoting
import FormulaEngine.Proofs.DepthFirst
import FormulaEngine.Proofs.Descent
import FormulaEngine.Proofs.Diagnostics
import FormulaEngine.Proofs.Documents
import FormulaEngine.Proofs.Emission
import FormulaEngine.Proofs.Entries
import FormulaEngine.Proofs.Exactness
import FormulaEngine.Proofs.Execution
import FormulaEngine.Proofs.Expression
import FormulaEngine.Proofs.Failures
import FormulaEngine.Proofs.Flatness
import FormulaEngine.Proofs.Folding
import FormulaEngine.Proofs.Gaps
import FormulaEngine.Proofs.Globs
import FormulaEngine.Proofs.Idempotence
import FormulaEngine.Proofs.Inlining
import FormulaEngine.Proofs.IntegerFormulas
import FormulaEngine.Proofs.IntegerTrees
import FormulaEngine.Proofs.Invariants
import FormulaEngine.Proofs.Joining
import FormulaEngine.Proofs.LastElements
import FormulaEngine.Proofs.Layout
import FormulaEngine.Proofs.Lexing
import FormulaEngine.Proofs.Literals
import FormulaEngine.Proofs.LogicalFormulas
import FormulaEngine.Proofs.LogicalTrees
import FormulaEngine.Proofs.Longest
import FormulaEngine.Proofs.Lookups
import FormulaEngine.Proofs.Merging
import FormulaEngine.Proofs.Nearest
import FormulaEngine.Proofs.Normality
import FormulaEngine.Proofs.Numerals
import FormulaEngine.Proofs.Paths
import FormulaEngine.Proofs.Phrases
import FormulaEngine.Proofs.Prefixes
import FormulaEngine.Proofs.Pushes
import FormulaEngine.Proofs.Quotations
import FormulaEngine.Proofs.Reachability
import FormulaEngine.Proofs.Readback
import FormulaEngine.Proofs.Reading
import FormulaEngine.Proofs.Rearrangement
import FormulaEngine.Proofs.Redrawing
import FormulaEngine.Proofs.References
import FormulaEngine.Proofs.Refusals
import FormulaEngine.Proofs.Regexes
import FormulaEngine.Proofs.Registration
import FormulaEngine.Proofs.Regrouping
import FormulaEngine.Proofs.Rereading
import FormulaEngine.Proofs.Saturation
import FormulaEngine.Proofs.Searches
import FormulaEngine.Proofs.Separation
import FormulaEngine.Proofs.Serialization
import FormulaEngine.Proofs.Slipping
import FormulaEngine.Proofs.Splicing
import FormulaEngine.Proofs.Steps
import FormulaEngine.Proofs.Stores
import FormulaEngine.Proofs.Strictness
import FormulaEngine.Proofs.Termination
import FormulaEngine.Proofs.Totals
import FormulaEngine.Proofs.Trees
import FormulaEngine.Proofs.Vocabulary
import FormulaEngine.Proofs.Waiting
import FormulaEngine.Proofs.Words
import FormulaEngine.Proofs.Wrappers
import FormulaEngine.Proofs.Writing
import FormulaEngine.Symbol.Basic
import FormulaEngine.Symbol.Optimize
import FormulaEngine.Text.Affix
import FormulaEngine.Text.Blank
import FormulaEngine.Text.Escape
import FormulaEngine.Text.Unprintable
import FormulaEngine.Token.Cursor
import FormulaEngine.Token.Fragment
import FormulaEngine.Token.Lexicon
import FormulaEngine.Token.Matcher
import FormulaEngine.Token.Trie
import FormulaEngine.Trace
import FormulaEngine.Value.Basic
import FormulaEngine.Value.Equality
import FormulaEngine.Value.Json
import FormulaEngine.Value.Text
