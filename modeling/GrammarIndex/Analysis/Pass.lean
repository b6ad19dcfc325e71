import GrammarIndex.Analysis.Result
import GrammarIndex.Registry.Basic

/-!
# A pass over a document

While a document is analysed, a pass holds the registry, the lines of the text,
what was found so far, and the names that the current grammar declares.  Whatever
a pass records goes both into the registry and into its own result.

## Main definitions

* `Scope` — the names declared by the grammar that is being looked at.
* `Pass` — a pass over a document.
* `Pass.declare`, `Pass.declareIfUnset` — state the kind of a symbol.
* `Pass.defineAt`, `Pass.referenceAt` — record a definition or a reference.
* `Pass.importedName?` — what a name means in the parents of the grammar.
* `Pass.result`, `Pass.abandon` — the two ways in which a pass ends.
-/

namespace GrammarIndex

/-- The names declared by the grammar that is being looked at. -/
structure Scope where
  /-- Its parents, in the order of their first mention. -/
  imports : List String
  /-- Its lexical contexts. -/
  contexts : List String
  /-- Its terminals. -/
  terminals : List String
  /-- Its variables. -/
  nonterminals : List String
  deriving DecidableEq, Repr

/-- The scope of a grammar that has declared nothing yet. -/
def Scope.empty : Scope := ⟨[], [], [], []⟩

/-- A pass over a document. -/
structure Pass where
  /-- The document. -/
  document : DocumentId
  /-- The lines of its text. -/
  lines : LineIndex
  /-- The registry as it stands now. -/
  registry : Registry
  /-- The definitions found so far, in order. -/
  definitions : List Mention
  /-- The references found so far, in order. -/
  references : List Mention
  /-- The mistakes found so far. -/
  log : DiagnosticLog
  /-- What the current grammar declares. -/
  scope : Scope
  deriving DecidableEq, Repr

namespace Pass

/-! ### Beginning and end -/

/-- A pass at its beginning. -/
def start (registry : Registry) (document : DocumentId) (text source : String) : Pass where
  document := document
  lines := .ofText text
  registry := registry
  definitions := []
  references := []
  log := .start document source
  scope := .empty

/-- What the pass has found. -/
def result (p : Pass) : Analysis where
  document := p.document
  definitions := p.definitions
  references := p.references
  diagnostics := p.log.entries

/-- The registry without anything that the pass has written.  The names that it
mentioned first remain, as placeholders. -/
def abandon (p : Pass) : Registry := p.registry.forget p.document

/-! ### Positions -/

/-- The range of a span of the document. -/
def rangeOf (p : Pass) (span : Span) : Except Fault Range :=
  match p.lines.range? span with
  | some r => .ok r
  | none => .error (.spanOutOfBounds p.document span p.lines.length)

/-! ### Symbols -/

/-- The symbol of a name, with a placeholder made on first mention. -/
def resolve (p : Pass) (name : String) : SymbolId × Pass :=
  let (i, registry) := p.registry.resolve name
  (i, { p with registry := registry })

/-- The symbol of a name, with the kind and parent that the document states where
it defines the symbol. -/
def declare (p : Pass) (name : String) (kind : Kind) (parent : Option SymbolId) :
    SymbolId × Pass :=
  let (i, registry) := p.registry.resolve name
  (i, { p with registry := (registry.setKind p.document i kind parent).2 })

/-- The symbol of a name, with the kind and parent that the document states where
it uses the symbol. -/
def declareIfUnset (p : Pass) (name : String) (kind : Kind) (parent : Option SymbolId) :
    SymbolId × Pass :=
  let (i, registry) := p.registry.resolve name
  (i, { p with registry := (registry.setKindIfUnset p.document i kind parent).2 })

/-- The pass with a definition recorded. -/
def addDefinition (p : Pass) (i : SymbolId) (range : Range) : Pass :=
  { p with
    registry := p.registry.addDefinition p.document i range
    definitions := p.definitions ++ [⟨i, range⟩] }

/-- The pass with a reference recorded.  A symbol that the registry does not have
is recorded in the result alone. -/
def addReference (p : Pass) (i : SymbolId) (range : Range) : Pass :=
  { p with
    registry := p.registry.addReference p.document i range
    references := p.references ++ [⟨i, range⟩] }

/-- The symbol of a name, declared and defined at a range. -/
def define (p : Pass) (name : String) (kind : Kind) (parent : Option SymbolId) (range : Range) :
    SymbolId × Pass :=
  let (i, p) := p.declare name kind parent
  (i, p.addDefinition i range)

/-- The symbol of a name, declared and defined at a span.  Nothing is written if
the span does not lie in the text. -/
def defineAt (p : Pass) (name : String) (kind : Kind) (parent : Option SymbolId) (span : Span) :
    Except Fault (SymbolId × Pass) :=
  (p.rangeOf span).map fun range => p.define name kind parent range

/-- The pass with a symbol referenced at a span.  Nothing is written if the span
does not lie in the text. -/
def referenceAt (p : Pass) (i : SymbolId) (span : Span) : Except Fault Pass :=
  (p.rangeOf span).map fun range => p.addReference i range

/-! ### Names of the current grammar -/

/-- The pass at the beginning of another grammar. -/
def beginGrammar (p : Pass) : Pass := { p with scope := .empty }

/-- The pass with a parent of the grammar noted. -/
def addImport (p : Pass) (name : String) : Pass :=
  { p with scope := { p.scope with imports := addNew p.scope.imports name } }

/-- The pass with a lexical context of the grammar noted. -/
def addContext (p : Pass) (name : String) : Pass :=
  { p with scope := { p.scope with contexts := addNew p.scope.contexts name } }

/-- The pass with a terminal of the grammar noted. -/
def addTerminal (p : Pass) (name : String) : Pass :=
  { p with scope := { p.scope with terminals := addNew p.scope.terminals name } }

/-- The pass with a variable of the grammar noted. -/
def addNonterminal (p : Pass) (name : String) : Pass :=
  { p with scope := { p.scope with nonterminals := addNew p.scope.nonterminals name } }

/-- The qualified name that a name has in the first parent that knows it with an
accepted kind. -/
def importedName? (p : Pass) (name : String) (accepts : Kind → Bool) : Option String :=
  (p.scope.imports.map (qualify · name)).find? fun q => (p.registry.kindNamed? q).any accepts

/-- The symbol that a name stands for in the first parent that knows it with an
accepted kind. -/
def imported? (p : Pass) (name : String) (accepts : Kind → Bool) : Option SymbolId :=
  (p.importedName? name accepts).bind p.registry.lookup?

/-! ### Mistakes -/

/-- The pass with a mistake noted. -/
def note (p : Pass) (mistake : Mistake) (range : Range) (name : String) : Pass :=
  { p with log := p.log.note mistake range name }

end Pass

end GrammarIndex
