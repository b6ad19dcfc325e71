import GrammarIndex.Query.Occurrences
import GrammarIndex.Text.LineIndex
import GrammarIndex.Text.Literal

/-!
# Renaming a symbol

A symbol is renamed in the document at hand, by one edit for each of its ranges
there.  Where the name stands in quotes, the quotes stay.

## Main definitions

* `TextEdit`, `RenameError` — what renaming comes to, and why it may not.
* `quoteAt?` — the quote that opens the text at a position.
* `Registry.rename` — the edits that rename the symbol at a position.
-/

namespace GrammarIndex

/-- A new text for a range. -/
structure TextEdit where
  /-- The range that is replaced. -/
  range : Range
  /-- The text that takes its place. -/
  newText : String
  deriving DecidableEq, Repr

/-- Why a symbol cannot be renamed. -/
inductive RenameError where
  /-- The new name cannot be the name of a symbol. -/
  | illegalName (name : String)
  /-- The symbol is only a placeholder. -/
  | unknownSymbol (qualifiedName : String)
  /-- There is no symbol at the position. -/
  | notInDocument (document : DocumentId) (position : Position)
  deriving DecidableEq, Repr

/-- The reason as people read it. -/
def RenameError.message : RenameError → String
  | illegalName name => s!"'{name}' is not a legal symbol name"
  | unknownSymbol name => s!"symbol '{name}' has no known kind and cannot be renamed"
  | notInDocument document position =>
    s!"no symbol at {position.display} in {document.display}"

/-- The quote that opens the text at a position, if one does. -/
def quoteAt? (text : String) (p : Position) : Option Char :=
  (((LineIndex.ofText text).offset? p).bind (charAtOffset? · text.toList)).filter isQuote

/-- A name in quotes, if there is a quote. -/
def requote (quote : Option Char) (name : String) : String :=
  match quote with
  | some q => q.toString ++ name ++ q.toString
  | none => name

/-- The edits that give a symbol of a document a new name: first where it is
defined, then where it is used. -/
def Symbol.renameEdits (s : Symbol) (d : DocumentId) (text newName : String) : List TextEdit :=
  (s.definitionsIn d ++ s.referencesIn d).map fun range =>
    ⟨range, requote (quoteAt? text range.start) newName⟩

/-- The edits that rename the symbol at a position.  Of several reasons against it,
the missing symbol comes first, then the missing kind, and then the new name. -/
def Registry.rename (r : Registry) (d : DocumentId) (text : String) (p : Position)
    (newName : String) : Except RenameError (List TextEdit) :=
  match r.symbolUnder? d p with
  | none => .error (.notInDocument d p)
  | some s =>
    if s.kind?.isNone then .error (.unknownSymbol s.qualifiedName)
    else if !isLegalName newName then .error (.illegalName newName)
    else .ok (s.renameEdits d text newName)

end GrammarIndex
