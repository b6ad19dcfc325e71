import GrammarIndex.Analysis.Pass
import GrammarIndex.Grammar.Occurrence
import GrammarIndex.Text.Literal

/-!
# Analysing a document

A pass walks the occurrences of a document in order.  Each is handled in four
steps: the name is read off the token, a symbol that is declared by its use gets
its kind, the range of the token is found, and the definition, the reference or
the mistake is recorded.  A token that is not what it should be stops the walk.

A name in a rule stands for a parameter of the rule, or else a terminal, or else
a variable of the grammar, or else whatever the first parent makes of it that
knows the name.  A name in the definition of a terminal stands for a terminal
declared so far, or else for a terminal of the first parent that has it.

## Main definitions

* `Occurrence.name?` — the name that a token carries.
* `Pass.meaning` — what a use of a name stands for.
* `Pass.announce`, `Pass.record` — what an occurrence does before and after its
  range is found.
* `Pass.visit`, `Pass.walk` — one occurrence, and all of them.
* `analyze`, `analyzeParsed` — the analysis of a document.
-/

namespace GrammarIndex

/-- The name that the token of an occurrence carries: its text, or the value of
the literal where one is asked for. -/
def Occurrence.name? (o : Occurrence) : Option String :=
  if o.role.isLiteral then literalValue? o.token.text else some o.token.text

/-- A name that is not told by a literal is written as it stands. -/
theorem Occurrence.name?_of_not_isLiteral {o : Occurrence} (h : o.role.isLiteral = false) :
    o.name? = some o.token.text :=
  if_neg (by simp [h])

/-! ### What a use stands for -/

/-- What a use of a name stands for. -/
inductive Meaning where
  /-- The symbol with this qualified name. -/
  | symbol (qualified : String)
  /-- Nothing: the use is a mistake. -/
  | mistake (m : Mistake)
  deriving DecidableEq, Repr

/-- The meaning of a name that a parent may have: what the parent makes of it, or
else a mistake. -/
def Meaning.ofImported : Option String → Mistake → Meaning
  | some q, _ => symbol q
  | none, m => mistake m

/-- The meaning of a name that must be one of those that the grammar itself has
declared. -/
def Meaning.ofLocal (declared : List String) (grammar name : String) (m : Mistake) : Meaning :=
  if name ∈ declared then symbol (qualify grammar name) else mistake m

namespace Pass

/-- A name in the definition of the terminal `owner`. -/
def terminalMeaning (p : Pass) (grammar owner name : String) : Meaning :=
  if name = owner then .mistake .selfReferentialTerminal
  else if name ∈ p.scope.terminals then .symbol (qualify grammar name)
  else .ofImported (p.importedName? name (· = .terminal)) .missingTerminal

/-- A name in the body of the rule `rule`, which has these parameters. -/
def symbolMeaning (p : Pass) (grammar rule : String) (parameters : List String) (name : String) :
    Meaning :=
  if name ∈ parameters then .symbol (qualify (qualify grammar rule) name)
  else if name ∈ p.scope.terminals then .symbol (qualify grammar name)
  else if name ∈ p.scope.nonterminals then .symbol (qualify grammar name)
  else .ofImported (p.importedName? name fun _ => true) .missingSymbol

/-- What a use of a name stands for. -/
def meaning (p : Pass) (grammar : String) (use : Use) (name : String) : Meaning :=
  match use with
  | .parent => .symbol name
  | .lexical owner => p.terminalMeaning grammar owner name
  | .context => .ofLocal p.scope.contexts grammar name .missingContext
  | .action => .symbol (qualify grammar name)
  | .virtual => .symbol (qualify grammar name)
  | .symbol rule parameters => p.symbolMeaning grammar rule parameters name
  | .axiomValue => .ofLocal p.scope.nonterminals grammar name .invalidAxiom
  | .separatorValue => .ofLocal p.scope.terminals grammar name .invalidSeparator

/-! ### One occurrence -/

/-- The symbol that owns the symbols named in `scope`. -/
def owner? (p : Pass) (scope : String) : Option SymbolId := p.registry.lookup? scope

/-- What an occurrence does before its range is found: a grammar begins, and a
parent, an action or a virtual symbol is declared by its use. -/
def announce (p : Pass) (grammar : String) (role : Role) (name : String) : Pass :=
  match role with
  | .grammar => p.beginGrammar
  | .use .parent => (p.declareIfUnset name .grammar none).2
  | .use .action => (p.declareIfUnset (qualify grammar name) .action (p.owner? grammar)).2
  | .use .virtual => (p.declareIfUnset (qualify grammar name) .virtual (p.owner? grammar)).2
  | _ => p

/-- The pass with a symbol of `scope` defined at a range. -/
def defineWithin (p : Pass) (scope name : String) (kind : Kind) (range : Range) : Pass :=
  (p.define (qualify scope name) kind (p.owner? scope) range).2

/-- The pass with the meaning of a use recorded: as a reference to the symbol that
it stands for, or as a mistake. -/
def recordMeaning (p : Pass) (meaning : Meaning) (name : String) (range : Range) : Pass :=
  match meaning with
  | .symbol qualified =>
    let (i, p) := p.resolve qualified
    p.addReference i range
  | .mistake m => p.note m range name

/-- The pass with a use recorded.  A parent is imported from then on. -/
def recordUse (p : Pass) (grammar : String) (use : Use) (name : String) (range : Range) : Pass :=
  let p := p.recordMeaning (p.meaning grammar use name) name range
  match use with
  | .parent => p.addImport name
  | _ => p

/-- What an occurrence does once its range is found: a symbol is defined and noted
as declared by the grammar, or a use is recorded. -/
def record (p : Pass) (grammar : String) (role : Role) (name : String) (range : Range) : Pass :=
  match role with
  | .grammar => (p.define name .grammar none range).2
  | .context => (p.defineWithin grammar name .context range).addContext name
  | .terminal => (p.defineWithin grammar name .terminal range).addTerminal name
  | .nonterminal => (p.defineWithin grammar name .nonterminal range).addNonterminal name
  | .parameter rule => p.defineWithin (qualify grammar rule) name .parameter range
  | .use use => p.recordUse grammar use name range

/-- A walk that was stopped: the fault, and the pass as it stood then. -/
structure Stopped where
  /-- The fault. -/
  fault : Fault
  /-- The pass when the fault was found. -/
  reached : Pass
  deriving DecidableEq, Repr

/-- The pass after one occurrence.  The literal is looked at before the span. -/
def visit (p : Pass) (o : Occurrence) : Except Stopped Pass :=
  match o.name? with
  | none => .error ⟨.malformedLiteral p.document o.token.text o.token.span, p⟩
  | some name =>
    let p := p.announce o.grammar o.role name
    match p.rangeOf o.token.span with
    | .error fault => .error ⟨fault, p⟩
    | .ok range => .ok (p.record o.grammar o.role name range)

/-- The pass after several occurrences. -/
def walk (p : Pass) (os : List Occurrence) : Except Stopped Pass := os.foldlM visit p

@[simp] theorem walk_nil (p : Pass) : p.walk [] = .ok p := rfl

theorem walk_cons (p : Pass) (o : Occurrence) (os : List Occurrence) :
    p.walk (o :: os) = (p.visit o).bind fun p => p.walk os := rfl

theorem walk_append (p : Pass) (os os' : List Occurrence) :
    p.walk (os ++ os') = (p.walk os).bind fun p => p.walk os' := by
  simp [walk, List.foldlM_append, bind]

end Pass

/-! ### A document -/

/-- The analysis of a document, and the registry after it.  What the document said
before is forgotten first; if the walk is stopped, so is what it said now. -/
def analyze (source : String) (registry : Registry) (document : DocumentId) (text : String)
    (tree : Tree) : Except Fault Analysis × Registry :=
  match (Pass.start (registry.forget document) document text source).walk tree.occurrences with
  | .ok p => (.ok p.result, p.registry)
  | .error stopped => (.error stopped.fault, stopped.reached.abandon)

/-- The analysis of what the parser made of a document.  Where there is no tree,
nothing is found, and what the document said before is forgotten. -/
def analyzeParsed (source : String) (registry : Registry) (document : DocumentId) (text : String)
    (parsed : Except ParseError Tree) : Except Fault Analysis × Registry :=
  match parsed with
  | .ok tree => analyze source registry document text tree
  | .error _ => (.ok (.empty document), registry.forget document)

end GrammarIndex
