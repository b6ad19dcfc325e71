import GrammarIndex.Registry.Basic
import GrammarIndex.Sorting

/-!
# Where a symbol occurs

An editor points at a position and asks where the symbol there is defined and
where it is used.

## Main definitions

* `Registry.symbolUnder?` — the symbol that occurs at a position.
* `Registry.gotoDefinition` — its definitions, in all documents.
* `Registry.findReferences` — its uses, in all documents.
* `Registry.highlights` — its occurrences in one document.
-/

namespace GrammarIndex

/-- How an occurrence is highlighted. -/
inductive HighlightKind where
  /-- The symbol is defined there. -/
  | write
  /-- The symbol is used there. -/
  | read
  deriving DecidableEq, Repr

/-- An occurrence of a symbol in the document at hand. -/
structure Highlight where
  /-- The range of the occurrence. -/
  range : Range
  /-- What the occurrence does. -/
  kind : HighlightKind
  deriving DecidableEq, Repr

/-- The locations in ascending order. -/
def Location.sorted (ls : List Location) : List Location := sortOn (fun l => l) ls

namespace Symbol

/-- The definitions of the symbol, in ascending order. -/
def sortedDefinitions (s : Symbol) : List Location := Location.sorted s.definitionLocations

/-- The uses of the symbol, in ascending order. -/
def sortedReferences (s : Symbol) : List Location := Location.sorted s.referenceLocations

/-- The occurrences of the symbol in a document, in ascending order of ranges.  A
definition comes before a use at the same range. -/
def highlightsIn (s : Symbol) (d : DocumentId) : List Highlight :=
  sortOn (·.range)
    ((s.definitionsIn d).map (⟨·, .write⟩) ++ (s.referencesIn d).map (⟨·, .read⟩))

end Symbol

namespace Registry

/-- The symbol that occurs at a position of a document. -/
def symbolUnder? (r : Registry) (d : DocumentId) (p : Position) : Option Symbol :=
  (r.symbolAt? d p).bind fun hit => r.symbol? hit.symbol

/-- Where the symbol at a position is defined, in all documents.  Actions, virtual
symbols and unknown names are defined nowhere. -/
def gotoDefinition (r : Registry) (d : DocumentId) (p : Position) : List Location :=
  match r.symbolUnder? d p with
  | some s => s.sortedDefinitions
  | none => []

/-- Where the symbol at a position is used, in all documents, after the places
where it is declared if these are asked for too. -/
def findReferences (r : Registry) (d : DocumentId) (p : Position) (declarations : Bool) :
    List Location :=
  match r.symbolUnder? d p with
  | some s => (if declarations then s.sortedDefinitions else []) ++ s.sortedReferences
  | none => []

/-- Where the symbol at a position occurs in the document. -/
def highlights (r : Registry) (d : DocumentId) (p : Position) : List Highlight :=
  match r.symbolUnder? d p with
  | some s => s.highlightsIn d
  | none => []

end Registry

end GrammarIndex
