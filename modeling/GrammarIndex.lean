import GrammarIndex.Query.Hover
import GrammarIndex.Registry.History
import GrammarIndex.Analysis.History
import GrammarIndex.Analysis.Calls
import GrammarIndex.Workspace.Host
import GrammarIndex.Workspace.History
import GrammarIndex.Analysis.View
import GrammarIndex.Grammar.Tokens
import GrammarIndex.Proofs.Sorting
import GrammarIndex.Proofs.Symbol.Speech
import GrammarIndex.Proofs.Symbol.Places
import GrammarIndex.Proofs.Symbol.Name
import GrammarIndex.Proofs.Symbol.Segments
import GrammarIndex.Proofs.Symbol.Renaming
import GrammarIndex.Proofs.Text.Lines
import GrammarIndex.Proofs.Text.Breaks
import GrammarIndex.Proofs.Text.Literal
import GrammarIndex.Proofs.Registry.Invariant
import GrammarIndex.Proofs.Registry.Mention
import GrammarIndex.Proofs.Registry.Forgetting
import GrammarIndex.Proofs.Registry.Slice
import GrammarIndex.Proofs.Registry.Standing
import GrammarIndex.Proofs.Registry.Statements
import GrammarIndex.Proofs.Registry.Decision
import GrammarIndex.Proofs.Grammar.Owners
import GrammarIndex.Proofs.Grammar.Members
import GrammarIndex.Proofs.Grammar.Anchors
import GrammarIndex.Proofs.Grammar.Tokens
import GrammarIndex.Proofs.Grammar.Renaming
import GrammarIndex.Proofs.Grammar.Leaves
import GrammarIndex.Proofs.Grammar.Declared
import GrammarIndex.Proofs.Analysis.Moves
import GrammarIndex.Proofs.Analysis.Footprint
import GrammarIndex.Proofs.Analysis.Reanalysis
import GrammarIndex.Proofs.Analysis.Abandonment
import GrammarIndex.Proofs.Analysis.Recorded
import GrammarIndex.Proofs.Analysis.Replacement
import GrammarIndex.Proofs.Analysis.View
import GrammarIndex.Proofs.Analysis.Knowledge
import GrammarIndex.Proofs.Analysis.Evolution
import GrammarIndex.Proofs.Analysis.Rounds
import GrammarIndex.Proofs.Analysis.Homes
import GrammarIndex.Proofs.Analysis.Kinds
import GrammarIndex.Proofs.Analysis.Renaming
import GrammarIndex.Proofs.Analysis.Handles
import GrammarIndex.Proofs.Analysis.Parents
import GrammarIndex.Proofs.Analysis.Hearing
import GrammarIndex.Proofs.Analysis.Territory
import GrammarIndex.Proofs.Analysis.Orders
import GrammarIndex.Proofs.Analysis.Independence
import GrammarIndex.Proofs.Analysis.FirstWord
import GrammarIndex.Proofs.Analysis.Stating
import GrammarIndex.Proofs.Analysis.Nesting
import GrammarIndex.Proofs.Analysis.Scope
import GrammarIndex.Proofs.Analysis.Resolution
import GrammarIndex.Proofs.Analysis.Definitions
import GrammarIndex.Proofs.Query.Edits
import GrammarIndex.Proofs.Query.Rename
import GrammarIndex.Proofs.Query.Hits
import GrammarIndex.Proofs.Query.Innermost
import GrammarIndex.Proofs.Query.Cursor
import GrammarIndex.Proofs.Query.Answers
import GrammarIndex.Proofs.Query.Occurrences
import GrammarIndex.Proofs.Query.Listings
import GrammarIndex.Proofs.Query.Outline
import GrammarIndex.Proofs.Workspace.Coherence
import GrammarIndex.Proofs.Workspace.Documents
import GrammarIndex.Proofs.Workspace.Spans
import GrammarIndex.Proofs.Workspace.Stored
import GrammarIndex.Proofs.Workspace.Sharing
import GrammarIndex.Proofs.Workspace.Pointing
import GrammarIndex.Proofs.Grammar.Declarations
import GrammarIndex.Proofs.Analysis.Lexicon
import GrammarIndex.Proofs.Analysis.Precedence
import GrammarIndex.Proofs.Analysis.Rearrangement
import GrammarIndex.Proofs.Analysis.RuleOrder
import GrammarIndex.Proofs.Grammar.Checks
import GrammarIndex.Proofs.Analysis.Faults
