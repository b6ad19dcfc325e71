import GrammarIndex.Analysis.Walk
import GrammarIndex.Query.Outline
import GrammarIndex.Query.Rename
import GrammarIndex.Workspace.Config
import GrammarIndex.Workspace.Documents

/-!
# Workspaces

A host holds the documents that are open in one editor, and the latest analysis of
each.  A workspace is a registry with the hosts that share it; a host on its own is
a workspace of one host.  The hosts number their documents independently.

## Main definitions

* `Host`, `Workspace` — the state.
* `Edit` — what an editor does to a document.
* `Host.edit`, `Workspace.edit` — the state after an edit, and the answer.
* `Host.rename`, `Host.codeLenses` — queries that need more than the registry.
-/

namespace GrammarIndex

/-- The documents that are open in one editor. -/
structure Host where
  /-- The settings. -/
  config : Config
  /-- The documents. -/
  documents : DocumentSet
  /-- The latest analysis of each document that could be analysed. -/
  results : Table DocumentId Analysis
  deriving DecidableEq, Repr

/-- What an editor does to a document. -/
inductive Edit where
  /-- The document at `uri` has a new text, of which the parser has made this. -/
  | set (uri text : String) (parsed : Except ParseError Tree)
  /-- The document at `uri` is closed. -/
  | remove (uri : String)

namespace Host

/-- A host without documents. -/
def start (config : Config) : Host := ⟨config, .empty, .empty⟩

/-- The latest analysis of a document. -/
def analysis? (h : Host) (d : DocumentId) : Option Analysis := h.results.get? d

/-- The diagnostics in the latest analysis of a document. -/
def diagnostics (h : Host) (d : DocumentId) : List Diagnostic :=
  match h.analysis? d with
  | some a => a.diagnostics
  | none => []

/-- The host with a text and a language for the document at `uri`, and the number
of the document. -/
def store (h : Host) (uri text : String) : DocumentId × Host :=
  let (d, documents) := h.documents.identify uri
  let documents := (documents.setText d text).setLanguage d (h.config.languageFor uri)
  (d, { h with documents := documents })

/-- The document at `uri` has a new text.  It is stored in any case, and analysed
if it holds grammars; a fault leaves the document without an analysis. -/
def set (h : Host) (r : Registry) (uri text : String) (parsed : Except ParseError Tree) :
    Except Fault DocumentId × Host × Registry :=
  let (d, h) := h.store uri text
  if h.config.handles uri then
    match analyzeParsed h.config.source r d text parsed with
    | (.ok a, r) => (.ok d, { h with results := h.results.insert d a }, r)
    | (.error fault, r) => (.error fault, { h with results := h.results.erase d }, r)
  else (.ok d, h, r)

/-- The document at `uri` is closed, and everything it said is forgotten.  A URI
that nobody asked for is ignored. -/
def remove (h : Host) (r : Registry) (uri : String) : Option DocumentId × Host × Registry :=
  match h.documents.find? uri with
  | none => (none, h, r)
  | some d =>
    (some d, { h with documents := (h.documents.close d).2, results := h.results.erase d },
      r.forget d)

/-- The host and the registry after an edit, and the document that was edited. -/
def edit (h : Host) (r : Registry) : Edit → Except Fault (Option DocumentId) × Host × Registry
  | .set uri text parsed =>
    let (answer, h, r) := h.set r uri text parsed
    (answer.map some, h, r)
  | .remove uri =>
    let (answer, h, r) := h.remove r uri
    (.ok answer, h, r)

/-! ### Queries -/

/-- The edits that rename the symbol at a position of a document, in the text that
the host holds for it. -/
def rename (h : Host) (r : Registry) (d : DocumentId) (p : Position) (newName : String) :
    Except RenameError (List TextEdit) :=
  r.rename d ((h.documents.text? d).getD "") p newName

/-- The lenses of a document that the host has a URI for. -/
def codeLenses (h : Host) (r : Registry) (d : DocumentId) : List CodeLens :=
  match h.documents.uri? d with
  | some uri => r.codeLenses d uri
  | none => []

end Host

/-! ### Workspaces -/

/-- A registry with the hosts that share it. -/
structure Workspace where
  /-- The registry. -/
  registry : Registry
  /-- The hosts. -/
  hosts : List Host
  deriving DecidableEq, Repr

namespace Workspace

/-- A workspace without documents, with a host for each configuration. -/
def start (configs : List Config) : Workspace := ⟨.empty, configs.map .start⟩

/-- The workspace after an edit in one of its hosts, and the document that was
edited.  A host that does not exist edits nothing. -/
def edit (w : Workspace) (host : Nat) (e : Edit) : Except Fault (Option DocumentId) × Workspace :=
  match w.hosts[host]? with
  | none => (.ok none, w)
  | some h =>
    let (answer, h, r) := h.edit w.registry e
    (answer, ⟨r, w.hosts.set host h⟩)

end Workspace

end GrammarIndex
