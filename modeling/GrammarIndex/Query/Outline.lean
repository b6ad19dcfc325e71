import GrammarIndex.Registry.Basic
import GrammarIndex.Sorting

/-!
# Outlines, searches and lenses

Three lists of definitions: the outline of a document, a search through all
documents, and the lenses that an editor shows above the grammars of a document.

## Main definitions

* `SymbolInfo` — a definition of a symbol, as it is listed.
* `Registry.documentSymbols` — the definitions in a document.
* `Registry.workspaceSymbols` — the definitions whose name matches a query.
* `Registry.codeLenses` — the grammars of a document, with a command on each.
-/

namespace GrammarIndex

/-- A definition of a symbol, as it is listed. -/
structure SymbolInfo where
  /-- The name of the symbol as written in the source. -/
  name : String
  /-- The qualified name of the symbol. -/
  qualifiedName : String
  /-- The kind of the symbol. -/
  kind : Kind
  /-- The place of the definition. -/
  location : Location
  /-- The qualified name of the symbol that owns it. -/
  container : Option String
  deriving DecidableEq, Repr

/-- What a search is sorted by: the name, and then the place. -/
structure SearchKey where
  /-- The qualified name of the symbol. -/
  name : String
  /-- The place of the definition. -/
  location : Location
  deriving DecidableEq, Repr

namespace SearchKey

/-- Names are ordered by code points; equal names by place. -/
instance : LE SearchKey where
  le a b := a.name < b.name ∨ a.name = b.name ∧ a.location ≤ b.location

instance : DecidableLE SearchKey := fun a b =>
  inferInstanceAs (Decidable (a.name < b.name ∨ a.name = b.name ∧ a.location ≤ b.location))

end SearchKey

/-- The key of a definition in a search. -/
def SymbolInfo.searchKey (info : SymbolInfo) : SearchKey := ⟨info.qualifiedName, info.location⟩

namespace Registry

/-! ### Definitions of a symbol -/

/-- The qualified name of the symbol that owns a symbol. -/
def containerOf? (r : Registry) (s : Symbol) : Option String :=
  (s.parent?.bind r.symbol?).map (·.qualifiedName)

/-- The name of a symbol as its owner sees it. -/
def displayName (r : Registry) (s : Symbol) : String :=
  match r.containerOf? s with
  | some container => nameWithin container s.qualifiedName
  | none => s.qualifiedName

/-- The definitions of a symbol at some places.  A placeholder is not listed. -/
def infosAt (r : Registry) (s : Symbol) (places : List Location) : List SymbolInfo :=
  match s.kind? with
  | none => []
  | some kind =>
    places.map fun place =>
      ⟨r.displayName s, s.qualifiedName, kind, place, r.containerOf? s⟩

/-! ### The outline of a document -/

/-- The definitions in a document, in the order of their ranges. -/
def documentSymbols (r : Registry) (d : DocumentId) : List SymbolInfo :=
  sortOn (·.location.range) <| (r.symbolsIn d).flatMap fun s =>
    r.infosAt s (s.definitionLocations.filter fun place => place.document = d)

/-! ### Searches -/

/-- One text occurs in another. -/
def occursIn (pattern : List Char) : List Char → Bool
  | [] => pattern.isEmpty
  | c :: cs => pattern.isPrefixOf (c :: cs) || occursIn pattern cs

/-- A text with its ASCII letters in lower case. -/
def lowercased (text : String) : List Char := text.toList.map Char.toLower

/-- The name matches the query: it contains it, whatever the case of ASCII letters. -/
def matchesQuery (query name : String) : Bool := occursIn (lowercased query) (lowercased name)

/-- The definitions in all documents whose name matches a query, in the order of
qualified names and then of places.  The empty query matches every name. -/
def workspaceSymbols (r : Registry) (query : String) : List SymbolInfo :=
  sortOn (·.searchKey) <|
    (r.knownSymbols.flatMap fun s => r.infosAt s s.definitionLocations).filter fun info =>
      matchesQuery query info.name

end Registry

/-! ### Lenses -/

/-- A command that an editor shows above a range. -/
structure CodeLens where
  /-- The range. -/
  range : Range
  /-- What the editor shows. -/
  title : String
  /-- The command. -/
  command : String
  /-- What the command is given. -/
  arguments : List String
  deriving DecidableEq, Repr

/-- The command that compiles a grammar. -/
def compileCommand : String := "compile"

/-- The lens above a grammar of the document at `uri`. -/
def CodeLens.compile (uri name : String) (range : Range) : CodeLens where
  range := range
  title := "Compile grammar " ++ name
  command := compileCommand
  arguments := [uri, name]

/-- The lenses of a document: one above each of its grammars, in the order of their
ranges. -/
def Registry.codeLenses (r : Registry) (d : DocumentId) (uri : String) : List CodeLens :=
  sortOn (·.range) <|
    ((r.symbolsIn d).filter fun s => s.kind? = some .grammar).flatMap fun s =>
      (s.definitionsIn d).map (.compile uri s.qualifiedName)

end GrammarIndex
