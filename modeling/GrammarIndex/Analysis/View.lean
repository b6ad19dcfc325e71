import GrammarIndex.Analysis.Walk
import GrammarIndex.Outcome
import Mathlib.Data.List.Forall2

/-!
# An analysis without a registry

An analysis writes to a registry that other documents have written to, but it sees
very little of it: which names have which kinds, and for which of them its own
document has already stated one.  A view is a pass cut down to just that.  It knows
symbols by their qualified names, it has no handles, no owners and no other
documents, and it goes over the same occurrences in the same order.

## Main definitions

* `Finding` — what an analysis finds, every symbol told by its qualified name.
* `Standing` — how a name stands with a document.
* `Role.act`, `Use.suggestion?`, `Scope.enter` — what an occurrence does to names.
* `Scope.meaning` — what a use stands for, given the kinds of names.
* `View`, `View.visit`, `View.walk` — a pass that knows names only.
* `findingOf` — what an analysis finds, as a function of the kinds of names.
* `Registry.ReadsAs`, `Registry.Gives` — an analysis, and an attempt at one, read by
  qualified names.
-/

namespace GrammarIndex

/-! ### Findings -/

/-- A symbol at a range, told by its qualified name. -/
structure NamedMention where
  /-- The qualified name of the symbol. -/
  name : String
  /-- The range. -/
  range : Range
  deriving DecidableEq, Repr

/-- What was found in a document, every symbol told by its qualified name. -/
structure Finding where
  /-- The symbols that it defines, in order. -/
  definitions : List NamedMention
  /-- The symbols that it references, in order. -/
  references : List NamedMention
  /-- The mistakes in it, in order. -/
  diagnostics : List Diagnostic
  deriving DecidableEq, Repr

/-! ### Standings -/

/-- How a name stands with a document. -/
structure Standing where
  /-- The kind of the name, if it has one. -/
  kind : Option Kind
  /-- The document has stated a kind for the name. -/
  own : Bool
  deriving DecidableEq, Repr

namespace Standing

/-- The standing of a name that the document has said nothing about yet. -/
def ofOthers (kind : Option Kind) : Standing := ⟨kind, false⟩

/-- The standing once the document defines the name.  What it has stated before
sticks; otherwise the kind of the definition replaces whatever others have said. -/
def settle (s : Standing) (kind : Kind) : Standing := if s.own then s else ⟨some kind, true⟩

/-- The standing once the document uses the name as one of this kind: that counts
only where the name has no kind, or this very one. -/
def suggest (s : Standing) (kind : Kind) : Standing :=
  if s.kind.all (· = kind) then s.settle kind else s

end Standing

/-! ### What an occurrence does to names -/

/-- What an occurrence does once its range is known. -/
inductive Act where
  /-- It defines a symbol of this qualified name. -/
  | define (name : String) (kind : Kind)
  /-- It uses a name. -/
  | use (use : Use)
  deriving DecidableEq, Repr

/-- What an occurrence of this name does. -/
def Role.act (role : Role) (grammar name : String) : Act :=
  match role with
  | .grammar => .define name .grammar
  | .context => .define (qualify grammar name) .context
  | .terminal => .define (qualify grammar name) .terminal
  | .nonterminal => .define (qualify grammar name) .nonterminal
  | .parameter rule => .define (qualify (qualify grammar rule) name) .parameter
  | .use u => .use u

/-- The qualified name that a use declares by itself, with the kind that it gives it. -/
def Use.suggestion? (use : Use) (grammar name : String) : Option (String × Kind) :=
  match use with
  | .parent => some (name, .grammar)
  | .action => some (qualify grammar name, .action)
  | .virtual => some (qualify grammar name, .virtual)
  | _ => none

namespace Scope

/-- The names that the current grammar declares, after an occurrence. -/
def enter (scope : Scope) (role : Role) (name : String) : Scope :=
  match role with
  | .grammar => .empty
  | .context => { scope with contexts := addNew scope.contexts name }
  | .terminal => { scope with terminals := addNew scope.terminals name }
  | .nonterminal => { scope with nonterminals := addNew scope.nonterminals name }
  | .use .parent => { scope with imports := addNew scope.imports name }
  | _ => scope

/-- The qualified name that a name has in the first parent that knows it with an
accepted kind. -/
def importedName? (scope : Scope) (kindOf : String → Option Kind) (name : String)
    (accepts : Kind → Bool) : Option String :=
  (scope.imports.map (qualify · name)).find? fun q => (kindOf q).any accepts

/-- What a use of a name stands for, where names have these kinds. -/
def meaning (scope : Scope) (kindOf : String → Option Kind) (grammar : String) (use : Use)
    (name : String) : Meaning :=
  match use with
  | .parent => .symbol name
  | .action => .symbol (qualify grammar name)
  | .virtual => .symbol (qualify grammar name)
  | .context => .ofLocal scope.contexts grammar name .missingContext
  | .axiomValue => .ofLocal scope.nonterminals grammar name .invalidAxiom
  | .separatorValue => .ofLocal scope.terminals grammar name .invalidSeparator
  | .lexical owner =>
    if name = owner then .mistake .selfReferentialTerminal
    else if name ∈ scope.terminals then .symbol (qualify grammar name)
    else .ofImported (scope.importedName? kindOf name (· = .terminal)) .missingTerminal
  | .symbol rule parameters =>
    if name ∈ parameters then .symbol (qualify (qualify grammar rule) name)
    else if name ∈ scope.terminals then .symbol (qualify grammar name)
    else if name ∈ scope.nonterminals then .symbol (qualify grammar name)
    else .ofImported (scope.importedName? kindOf name fun _ => true) .missingSymbol

end Scope

/-! ### Views -/

/-- A pass that knows symbols by their qualified names only. -/
structure View where
  /-- The document. -/
  document : DocumentId
  /-- The lines of its text. -/
  lines : LineIndex
  /-- How every name stands with the document now. -/
  standing : String → Standing
  /-- The definitions found so far, in order. -/
  definitions : List NamedMention
  /-- The references found so far, in order. -/
  references : List NamedMention
  /-- The mistakes found so far. -/
  log : DiagnosticLog
  /-- What the current grammar declares. -/
  scope : Scope

namespace View

/-- A view at its beginning, where names have these kinds. -/
def start (kindOf : String → Option Kind) (document : DocumentId) (text source : String) :
    View where
  document := document
  lines := .ofText text
  standing := fun name => .ofOthers (kindOf name)
  definitions := []
  references := []
  log := .start document source
  scope := .empty

/-- What the view has found. -/
def finding (v : View) : Finding where
  definitions := v.definitions
  references := v.references
  diagnostics := v.log.entries

/-- The kind of a name now. -/
def kindOf (v : View) (name : String) : Option Kind := (v.standing name).kind

/-- The view with the standing of one name changed. -/
def change (v : View) (name : String) (f : Standing → Standing) : View :=
  { v with standing := fun n => if n = name then f (v.standing n) else v.standing n }

theorem change_eq_self {v : View} {name : String} {f : Standing → Standing}
    (h : f (v.standing name) = v.standing name) : v.change name f = v := by
  have hstanding : (v.change name f).standing = v.standing := by
    funext n
    show (if n = name then f (v.standing n) else v.standing n) = v.standing n
    split
    · next hn => rw [hn, h]
    · rfl
  exact congrArg (fun standing => { v with standing := standing }) hstanding

/-- The view with a symbol defined at a range. -/
def define (v : View) (name : String) (kind : Kind) (range : Range) : View :=
  { v.change name (·.settle kind) with definitions := v.definitions ++ [⟨name, range⟩] }

/-- The view with whatever a use declares by itself. -/
def announce (v : View) (suggestion : Option (String × Kind)) : View :=
  match suggestion with
  | some (name, kind) => v.change name (·.suggest kind)
  | none => v

/-- The view with the meaning of a use recorded. -/
def recordMeaning (v : View) (meaning : Meaning) (name : String) (range : Range) : View :=
  match meaning with
  | .symbol qualified => { v with references := v.references ++ [⟨qualified, range⟩] }
  | .mistake m => { v with log := v.log.note m range name }

/-- The view with a use recorded. -/
def recordUse (v : View) (grammar : String) (use : Use) (name : String) (range : Range) : View :=
  let v := v.announce (use.suggestion? grammar name)
  v.recordMeaning (v.scope.meaning v.kindOf grammar use name) name range

/-- The view after an occurrence whose name and range are known. -/
def record (v : View) (grammar : String) (role : Role) (name : String) (range : Range) : View :=
  let recorded := match role.act grammar name with
    | .define qualified kind => v.define qualified kind range
    | .use use => v.recordUse grammar use name range
  { recorded with scope := recorded.scope.enter role name }

/-- The view after one occurrence.  The literal is looked at before the span. -/
def visit (v : View) (o : Occurrence) : Except Fault View :=
  match o.name? with
  | none => .error (.malformedLiteral v.document o.token.text o.token.span)
  | some name =>
    match v.lines.range? o.token.span with
    | none => .error (.spanOutOfBounds v.document o.token.span v.lines.length)
    | some range => .ok (v.record o.grammar o.role name range)

/-- The view after several occurrences. -/
def walk (v : View) (os : List Occurrence) : Except Fault View := os.foldlM visit v

@[simp] theorem walk_nil (v : View) : v.walk [] = .ok v := rfl

theorem walk_cons (v : View) (o : Occurrence) (os : List Occurrence) :
    v.walk (o :: os) = (v.visit o).bind fun v => v.walk os := rfl

theorem walk_append (v : View) (os os' : List Occurrence) :
    v.walk (os ++ os') = (v.walk os).bind fun v => v.walk os' := by
  simp [walk, List.foldlM_append, bind]

end View

/-- What an analysis of a document finds, or the fault that stops it, where names have
these kinds. -/
def findingOf (source : String) (kindOf : String → Option Kind) (document : DocumentId)
    (text : String) (tree : Tree) : Except Fault Finding :=
  ((View.start kindOf document text source).walk tree.occurrences).map (·.finding)

/-! ### Reading an analysis -/

namespace Registry

/-- The symbol of a mention has this qualified name in the registry, and the ranges are
the same. -/
def Reads (r : Registry) (m : Mention) (n : NamedMention) : Prop :=
  (∃ s, r.symbol? m.symbol = some s ∧ s.qualifiedName = n.name) ∧ m.range = n.range

/-- An analysis whose handles belong to the registry, with every symbol told by its
qualified name. -/
structure ReadsAs (r : Registry) (a : Analysis) (f : Finding) : Prop where
  /-- The definitions agree entry by entry. -/
  definitions : List.Forall₂ r.Reads a.definitions f.definitions
  /-- The references agree entry by entry. -/
  references : List.Forall₂ r.Reads a.references f.references
  /-- The diagnostics are the same. -/
  diagnostics : a.diagnostics = f.diagnostics

/-- What an attempt to analyse a document comes to, read in the registry that it
leaves: the fault, or the finding. -/
def Gives (outcome : Except Fault Analysis × Registry) (answer : Except Fault Finding) : Prop :=
  EndAlike Eq outcome.2.ReadsAs outcome.1 answer

end Registry

end GrammarIndex
