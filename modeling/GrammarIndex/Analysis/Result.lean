import GrammarIndex.Diagnostic
import GrammarIndex.Grammar.Tree

/-!
# Results of an analysis

An analysis of a document ends in its definitions, references and diagnostics, in
the order in which they came up, or in the fault of the tree that stopped it.  A
mistake in the grammar is a diagnostic, and never a fault.

## Main definitions

* `Mention` — a symbol at a range.
* `Analysis` — what was found in a document.
* `Fault` — why a tree cannot be analysed.
-/

namespace GrammarIndex

/-- A symbol at a range of the document. -/
structure Mention where
  /-- The symbol. -/
  symbol : SymbolId
  /-- The range. -/
  range : Range
  deriving DecidableEq, Repr

/-- What was found in one version of a document. -/
structure Analysis where
  /-- The document. -/
  document : DocumentId
  /-- The symbols that it defines, in order. -/
  definitions : List Mention
  /-- The symbols that it references, in order. -/
  references : List Mention
  /-- The mistakes in it, in order. -/
  diagnostics : List Diagnostic
  deriving DecidableEq, Repr

namespace Analysis

/-- The analysis of a document in which nothing was found. -/
def empty (document : DocumentId) : Analysis := ⟨document, [], [], []⟩

/-- Nothing was found. -/
def isEmpty (a : Analysis) : Bool :=
  a.definitions.isEmpty && a.references.isEmpty && a.diagnostics.isEmpty

/-- The ranges of a symbol among some mentions. -/
def rangesOf (i : SymbolId) (mentions : List Mention) : List Range :=
  (mentions.filter fun m => m.symbol = i).map (·.range)

/-- The ranges at which the document defines a symbol. -/
def definitionsOf (a : Analysis) (i : SymbolId) : List Range := rangesOf i a.definitions

/-- The ranges at which the document references a symbol. -/
def referencesOf (a : Analysis) (i : SymbolId) : List Range := rangesOf i a.references

/-- The diagnostics of a severity. -/
def ofSeverity (a : Analysis) (severity : Severity) : List Diagnostic :=
  a.diagnostics.filter fun d => d.severity = severity

end Analysis

/-- Why a tree cannot be analysed: it does not fit the text that it is said to
be the tree of. -/
inductive Fault where
  /-- A token ends after the text, which has `length` bytes. -/
  | spanOutOfBounds (document : DocumentId) (span : Span) (length : Nat)
  /-- A token should be a quoted literal and is not. -/
  | malformedLiteral (document : DocumentId) (literal : String) (span : Span)
  deriving DecidableEq, Repr

/-- The fault as people read it. -/
def Fault.message : Fault → String
  | spanOutOfBounds document span length =>
    s!"span {span.display} of {document.display} lies outside the {length}-byte document text"
  | malformedLiteral document literal span =>
    "expected a quoted literal at " ++ span.display ++ " of " ++ document.display ++
      ", found `" ++ literal ++ "`"

end GrammarIndex
