import GrammarIndex.Analysis.Walk
import GrammarIndex.Registry.History

/-!
# Histories with analyses

A registry in use sees single operations, and whole analyses of documents that were
parsed, or could not be.  Written down as data, a history of both leads from the
empty registry to every registry that can be met.

## Main definitions

* `Registry.Event` — an operation, or the analysis of a document.
* `Registry.after` — the registry after a history that began with the empty one.
-/

namespace GrammarIndex

namespace Registry

/-- One thing that can happen to a registry in use. -/
inductive Event where
  /-- A single operation. -/
  | operation (o : Operation)
  /-- The analysis of what the parser made of a document. -/
  | analysis (source : String) (d : DocumentId) (text : String) (parsed : Except ParseError Tree)

/-- The registry after an event. -/
def Event.run (r : Registry) : Event → Registry
  | .operation o => (o.run r).2
  | .analysis source d text parsed => (analyzeParsed source r d text parsed).2

/-- The registry after a history that began with the empty one. -/
def after (history : List Event) : Registry := history.foldl Event.run .empty

end Registry

end GrammarIndex
