import GrammarIndex.Workspace.Host

/-!
# Histories of edits

Whatever happens to the documents of an editor is a sequence of edits.  Written down
as data, a history leads from a new host to every state that the host can be in, and
from a new workspace, edit by edit in whatever order, to every state of its hosts.

## Main definitions

* `Host.replay` — a host with a registry, after several edits.
* `Workspace.replay` — a workspace, after edits in several hosts.
* `Edit.target?`, `Workspace.target?` — the document that an edit replaces in the
  registry.
* `Workspace.lastWriter` — the host that replaced a document last.
-/

namespace GrammarIndex

/-- The host and the registry after several edits. -/
def Host.replay (h : Host) (r : Registry) (edits : List Edit) : Host × Registry :=
  edits.foldl (fun state e => (state.1.edit state.2 e).2) (h, r)

/-- The document that an edit of a host replaces in the registry.  A document that
holds no grammars is stored and nothing else, and a URI that nobody asked for is
ignored. -/
def Edit.target? (h : Host) : Edit → Option DocumentId
  | .set uri _ _ => if h.config.handles uri then some (h.documents.identify uri).1 else none
  | .remove uri => h.documents.find? uri

namespace Workspace

/-- One edit in one of the hosts of a workspace. -/
structure Step where
  /-- The number of the host. -/
  host : Nat
  /-- What is edited there. -/
  edit : Edit

/-- The workspace after a step. -/
def step (w : Workspace) (s : Step) : Workspace := (w.edit s.host s.edit).2

/-- The workspace after several steps. -/
def replay (w : Workspace) (steps : List Step) : Workspace := steps.foldl step w

/-- The document that a step replaces in the registry. -/
def target? (w : Workspace) (s : Step) : Option DocumentId :=
  (w.hosts[s.host]?).bind s.edit.target?

/-- The host that replaced a document last, when several steps have been taken;
`writer`, if none of them did. -/
def lastWriter (w : Workspace) (d : DocumentId) (writer : Option Nat) : List Step → Option Nat
  | [] => writer
  | s :: steps =>
    (w.step s).lastWriter d (if w.target? s = some d then some s.host else writer) steps

end Workspace

end GrammarIndex
