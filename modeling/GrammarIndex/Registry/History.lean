import GrammarIndex.Registry.Basic

/-!
# Histories of a registry

Everything that happens to a registry is a sequence of six operations.  Written
down as data, they can be run one after the other, and a law about a registry can
be said of every history.

## Main definitions

* `Registry.Operation`, `Registry.Answer` — one operation, and what it answers.
* `Registry.Operation.document?` — the document that an operation is about.
* `Registry.Operation.run` — an operation on a registry.
* `Registry.replay` — a whole history, with all answers.
-/

namespace GrammarIndex

namespace Registry

/-- One thing that can happen to a registry. -/
inductive Operation where
  /-- A name is mentioned. -/
  | resolve (name : String)
  /-- A document states a kind where it defines a symbol. -/
  | setKind (d : DocumentId) (i : SymbolId) (kind : Kind) (parent : Option SymbolId)
  /-- A document states a kind where it uses a symbol. -/
  | setKindIfUnset (d : DocumentId) (i : SymbolId) (kind : Kind) (parent : Option SymbolId)
  /-- A document defines a symbol. -/
  | addDefinition (d : DocumentId) (i : SymbolId) (range : Range)
  /-- A document references a symbol. -/
  | addReference (d : DocumentId) (i : SymbolId) (range : Range)
  /-- A document is forgotten. -/
  | forget (d : DocumentId)
  deriving DecidableEq, Repr

/-- The document that says something by the operation, or is forgotten by it.  To mention
a name is nobody's word. -/
def Operation.document? : Operation → Option DocumentId
  | .resolve _ => none
  | .setKind d _ _ _ => some d
  | .setKindIfUnset d _ _ _ => some d
  | .addDefinition d _ _ => some d
  | .addReference d _ _ => some d
  | .forget d => some d

/-- What an operation answers. -/
inductive Answer where
  /-- The handle of the name that was mentioned. -/
  | handle (i : SymbolId)
  /-- Whether a statement was taken. -/
  | taken (b : Bool)
  /-- How many symbols the forgotten document spoke of. -/
  | count (n : Nat)
  /-- Nothing is answered. -/
  | done
  deriving DecidableEq, Repr

/-- What an operation answers, and the registry after it. -/
def Operation.run (r : Registry) : Operation → Answer × Registry
  | .resolve name => let (i, r) := r.resolve name; (.handle i, r)
  | .setKind d i kind parent => let (b, r) := r.setKind d i kind parent; (.taken b, r)
  | .setKindIfUnset d i kind parent =>
    let (b, r) := r.setKindIfUnset d i kind parent; (.taken b, r)
  | .addDefinition d i range => (.done, r.addDefinition d i range)
  | .addReference d i range => (.done, r.addReference d i range)
  | .forget d => (.count (r.countIn d), r.forget d)

/-- The answers of a history, and the registry after it. -/
def replay (r : Registry) : List Operation → List Answer × Registry
  | [] => ([], r)
  | o :: os =>
    let (answer, r) := o.run r
    let (answers, r) := r.replay os
    (answer :: answers, r)

/-- A history goes on where its beginning has ended. -/
theorem registry_replay_append (r : Registry) (os os' : List Operation) :
    (r.replay (os ++ os')).2 = ((r.replay os).2.replay os').2 := by
  induction os generalizing r with
  | nil => rfl
  | cons o os ih => exact ih (o.run r).2

end Registry

end GrammarIndex
