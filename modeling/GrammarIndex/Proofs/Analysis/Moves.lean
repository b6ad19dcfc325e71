import GrammarIndex.Analysis.Walk
import GrammarIndex.Proofs.Registry.Mention

/-!
# The moves of a pass

Whatever a pass does at an occurrence is a sequence of a few simple moves, each of
which says one thing about one name: a kind, a definition, a reference.  A law about
passes is proved move by move, and then holds of every walk, whether it came to its
end or was stopped.

## Main definitions

* `Move` — one thing that a pass can do; `Move.names` — the names that it mentions.
* `Pass.perform`, `Pass.play` — a pass after one move, and after several.
* `announcement`, `Pass.recording` — the moves before and after the range of an
  occurrence is found.
* `Pass.visitMoves`, `Pass.walkMoves` — the moves of a visit and of a walk, as far as
  they come.
* `Pass.reached` — the pass as a walk leaves it, at its end or where it was stopped.

## Main results

* `Pass.announce_eq`, `Pass.record_eq` — what an occurrence does is its moves.
* `Pass.visit_eq` — **a visit is its moves**, with two places where it can stop.
* `Pass.reached_walk` — stopped or not, a walk has played its moves.
-/

namespace GrammarIndex

/-- One thing that a pass can do. -/
inductive Move where
  /-- State the kind and the owner of a symbol where it is defined. -/
  | state (name : String) (kind : Kind) (owner : Option String)
  /-- State the kind and the owner of a symbol where it is used. -/
  | suggest (name : String) (kind : Kind) (owner : Option String)
  /-- Define a symbol at a range. -/
  | define (name : String) (range : Range)
  /-- Reference a symbol at a range. -/
  | refer (name : String) (range : Range)
  /-- Note a mistake. -/
  | note (mistake : Mistake) (range : Range) (name : String)
  /-- Change the names of the current grammar. -/
  | rescope (change : Scope → Scope)

/-- The qualified names that a move mentions. -/
def Move.names : Move → List String
  | state name _ _ => [name]
  | suggest name _ _ => [name]
  | define name _ => [name]
  | refer name _ => [name]
  | note _ _ _ => []
  | rescope _ => []

/-- The qualified name of the owner that a move looks up. -/
def Move.owner? : Move → Option String
  | state _ _ owner => owner
  | suggest _ _ owner => owner
  | _ => none

/-- The names that several moves mention, in order. -/
def Move.namesOfAll (ms : List Move) : List String := ms.flatMap names

theorem Move.namesOfAll_append (ms ms' : List Move) :
    namesOfAll (ms ++ ms') = namesOfAll ms ++ namesOfAll ms' := List.flatMap_append ..

/-- The moves of an occurrence before its range is found. -/
def announcement (grammar : String) (role : Role) (name : String) : List Move :=
  match role with
  | .grammar => [.rescope fun _ => .empty]
  | .use .parent => [.suggest name .grammar none]
  | .use .action => [.suggest (qualify grammar name) .action (some grammar)]
  | .use .virtual => [.suggest (qualify grammar name) .virtual (some grammar)]
  | _ => []

/-- The moves that define a symbol. -/
def definition (name : String) (kind : Kind) (owner : Option String) (range : Range) :
    List Move :=
  [.state name kind owner, .define name range]

/-- The move that records what a use of a name stands for. -/
def Meaning.move (meaning : Meaning) (name : String) (range : Range) : Move :=
  match meaning with
  | .symbol qualified => .refer qualified range
  | .mistake m => .note m range name

theorem Meaning.owner?_move (meaning : Meaning) (name : String) (range : Range) :
    (meaning.move name range).owner? = none := by
  cases meaning <;> rfl

namespace Pass

/-! ### Performing moves -/

/-- The pass after one move. -/
def perform (p : Pass) : Move → Pass
  | .state name kind owner => (p.declare name kind (owner.bind p.owner?)).2
  | .suggest name kind owner => (p.declareIfUnset name kind (owner.bind p.owner?)).2
  | .define name range => (p.resolve name).2.addDefinition (p.resolve name).1 range
  | .refer name range => (p.resolve name).2.addReference (p.resolve name).1 range
  | .note m range name => p.note m range name
  | .rescope change => { p with scope := change p.scope }

/-- The pass after several moves. -/
def play (p : Pass) (ms : List Move) : Pass := ms.foldl perform p

@[simp] theorem play_nil (p : Pass) : p.play [] = p := rfl

theorem play_cons (p : Pass) (m : Move) (ms : List Move) :
    p.play (m :: ms) = (p.perform m).play ms := rfl

theorem play_append (p : Pass) (ms ms' : List Move) :
    p.play (ms ++ ms') = (p.play ms).play ms' := List.foldl_append ..

/-- A property that every move keeps is kept by all moves together. -/
theorem play_induction {motive : Pass → Prop} (hperform : ∀ p m, motive p → motive (p.perform m))
    {p : Pass} (h : motive p) (ms : List Move) : motive (p.play ms) := by
  induction ms generalizing p with
  | nil => exact h
  | cons m ms ih => exact ih (hperform p m h)

@[simp] theorem document_perform (p : Pass) (m : Move) : (p.perform m).document = p.document := by
  cases m <;> rfl

@[simp] theorem lines_perform (p : Pass) (m : Move) : (p.perform m).lines = p.lines := by
  cases m <;> rfl

@[simp] theorem document_play (p : Pass) (ms : List Move) :
    (p.play ms).document = p.document :=
  play_induction (motive := fun q => q.document = p.document)
    (fun q m hq => (document_perform q m).trans hq) rfl ms

@[simp] theorem lines_play (p : Pass) (ms : List Move) : (p.play ms).lines = p.lines :=
  play_induction (motive := fun q => q.lines = p.lines)
    (fun q m hq => (lines_perform q m).trans hq) rfl ms

/-- No definition is taken back. -/
theorem definitions_isPrefix_play (p : Pass) (ms : List Move) :
    p.definitions <+: (p.play ms).definitions := by
  refine play_induction (motive := fun q => p.definitions <+: q.definitions) ?_
    List.prefix_rfl ms
  intro q m hq
  refine hq.trans ?_
  cases m with
  | define name range => exact List.prefix_append _ _
  | _ => exact List.prefix_rfl

/-- No reference is taken back. -/
theorem references_isPrefix_play (p : Pass) (ms : List Move) :
    p.references <+: (p.play ms).references := by
  refine play_induction (motive := fun q => p.references <+: q.references) ?_ List.prefix_rfl ms
  intro q m hq
  refine hq.trans ?_
  cases m with
  | refer name range => exact List.prefix_append _ _
  | _ => exact List.prefix_rfl

/-- Mistakes are added at the end of the log, and nothing else in it changes. -/
theorem exists_log_play (p : Pass) (ms : List Move) :
    ∃ entries, (p.play ms).log = { p.log with entries := p.log.entries ++ entries } := by
  refine play_induction (motive := fun q => ∃ entries,
    q.log = { p.log with entries := p.log.entries ++ entries }) ?_ ⟨[], by simp⟩ ms
  rintro q m ⟨entries, hq⟩
  cases m with
  | note mistake range name =>
    refine ⟨entries ++ [.make q.log.document range mistake q.log.source (mistake.message name)], ?_⟩
    show q.log.note mistake range name = _
    rw [DiagnosticLog.note, DiagnosticLog.add, hq, List.append_assoc]
  | _ => exact ⟨entries, hq⟩

/-- A range depends on the text alone. -/
@[simp] theorem rangeOf_play (p : Pass) (ms : List Move) (span : Span) :
    (p.play ms).rangeOf span = p.rangeOf span := by
  simp [rangeOf]

/-! ### Occurrences as moves -/

/-- A symbol that was just declared resolves to itself. -/
theorem resolve_declare (p : Pass) (name : String) (kind : Kind) (owner : Option SymbolId) :
    (p.declare name kind owner).2.resolve name = p.declare name kind owner := by
  have hlookup : (p.declare name kind owner).2.registry.lookup? name =
      some (p.declare name kind owner).1 := by
    simp only [declare, Registry.setKind, Registry.lookup?_write]
    exact Registry.lookup?_resolve_self p.registry name
  rw [resolve, Registry.resolve_of_lookup? hlookup]

/-- Declaring and defining a symbol are two moves. -/
theorem define_eq (p : Pass) (name : String) (kind : Kind) (owner : Option String)
    (range : Range) :
    (p.define name kind (owner.bind p.owner?) range).2 =
      p.play (definition name kind owner range) := by
  simp only [definition, play, List.foldl_cons, List.foldl_nil, perform, resolve_declare]
  rfl

theorem defineWithin_eq (p : Pass) (scope name : String) (kind : Kind) (range : Range) :
    p.defineWithin scope name kind range =
      p.play (definition (qualify scope name) kind (some scope) range) :=
  define_eq p (qualify scope name) kind (some scope) range

theorem recordMeaning_eq (p : Pass) (meaning : Meaning) (name : String) (range : Range) :
    p.recordMeaning meaning name range = p.perform (meaning.move name range) := by
  cases meaning <;> rfl

theorem announce_eq (p : Pass) (grammar : String) (role : Role) (name : String) :
    p.announce grammar role name = p.play (announcement grammar role name) := by
  cases role with
  | use use => cases use <;> rfl
  | _ => rfl

/-- The moves of an occurrence once its range is found. -/
def recording (p : Pass) (grammar : String) (role : Role) (name : String) (range : Range) :
    List Move :=
  match role with
  | .grammar => definition name .grammar none range
  | .context =>
    definition (qualify grammar name) .context (some grammar) range ++
      [.rescope fun scope => { scope with contexts := addNew scope.contexts name }]
  | .terminal =>
    definition (qualify grammar name) .terminal (some grammar) range ++
      [.rescope fun scope => { scope with terminals := addNew scope.terminals name }]
  | .nonterminal =>
    definition (qualify grammar name) .nonterminal (some grammar) range ++
      [.rescope fun scope => { scope with nonterminals := addNew scope.nonterminals name }]
  | .parameter rule =>
    definition (qualify (qualify grammar rule) name) .parameter (some (qualify grammar rule)) range
  | .use .parent =>
    [.refer name range, .rescope fun scope => { scope with imports := addNew scope.imports name }]
  | .use use => [(p.meaning grammar use name).move name range]

theorem record_eq (p : Pass) (grammar : String) (role : Role) (name : String) (range : Range) :
    p.record grammar role name range = p.play (p.recording grammar role name range) := by
  cases role with
  | grammar => exact define_eq p name .grammar none range
  | context => rw [record, defineWithin_eq, recording, play_append]; rfl
  | terminal => rw [record, defineWithin_eq, recording, play_append]; rfl
  | nonterminal => rw [record, defineWithin_eq, recording, play_append]; rfl
  | parameter rule => rw [record, defineWithin_eq]; rfl
  | use use =>
    have hmeaning := recordMeaning_eq p (p.meaning grammar use name) name range
    cases use with
    | parent => rfl
    | _ => exact hmeaning

/-! ### Visits and walks -/

/-- **A visit is its moves.**  It can stop before the first move, at a literal that
is none, and before the recording, at a span that is not in the text. -/
theorem visit_eq (p : Pass) (o : Occurrence) :
    p.visit o =
      match o.name? with
      | none => .error ⟨.malformedLiteral p.document o.token.text o.token.span, p⟩
      | some name =>
        let q := p.play (announcement o.grammar o.role name)
        match p.rangeOf o.token.span with
        | .error fault => .error ⟨fault, q⟩
        | .ok range => .ok (q.play (q.recording o.grammar o.role name range)) := by
  unfold visit
  cases o.name? with
  | none => rfl
  | some name =>
    simp only [announce_eq, rangeOf_play]
    cases p.rangeOf o.token.span with
    | error fault => rfl
    | ok range => simp only [record_eq]

/-- The pass as a walk leaves it, at its end or where it was stopped. -/
def reached : Except Stopped Pass → Pass
  | .ok p => p
  | .error stopped => stopped.reached

/-- The moves of a visit, as far as it comes. -/
def visitMoves (p : Pass) (o : Occurrence) : List Move :=
  match o.name? with
  | none => []
  | some name =>
    let announced := announcement o.grammar o.role name
    match p.rangeOf o.token.span with
    | .error _ => announced
    | .ok range => announced ++ (p.play announced).recording o.grammar o.role name range

/-- The moves of a walk, as far as it comes. -/
def walkMoves (p : Pass) : List Occurrence → List Move
  | [] => []
  | o :: os =>
    match p.visit o with
    | .error _ => p.visitMoves o
    | .ok q => p.visitMoves o ++ q.walkMoves os

/-- Stopped or not, a visit has played its moves. -/
theorem reached_visit (p : Pass) (o : Occurrence) :
    reached (p.visit o) = p.play (p.visitMoves o) := by
  rw [visit_eq, visitMoves]
  cases o.name? with
  | none => rfl
  | some name =>
    cases p.rangeOf o.token.span with
    | error fault => rfl
    | ok range => exact (play_append _ _ _).symm

/-- A visit that is not stopped comes to the end of its recording. -/
theorem visit_eq_ok {p q : Pass} {o : Occurrence} (h : p.visit o = .ok q) :
    ∃ name range, o.name? = some name ∧ p.rangeOf o.token.span = .ok range ∧
      p.visitMoves o = announcement o.grammar o.role name ++
        (p.play (announcement o.grammar o.role name)).recording o.grammar o.role name range ∧
      q = p.play (p.visitMoves o) := by
  have hreached := reached_visit p o
  rw [h] at hreached
  rw [visit_eq] at h
  unfold visitMoves at hreached ⊢
  cases hname : o.name? with
  | none =>
    rw [hname] at h
    exact absurd h (by simp)
  | some name =>
    rw [hname] at h hreached
    cases hrange : p.rangeOf o.token.span with
    | error fault =>
      simp only [hrange] at h
      exact absurd h (by simp)
    | ok range =>
      simp only [hrange] at hreached
      exact ⟨name, range, rfl, rfl, rfl, hreached⟩

/-- **Stopped or not, a walk has played its moves.** -/
theorem reached_walk (p : Pass) (os : List Occurrence) :
    reached (p.walk os) = p.play (p.walkMoves os) := by
  -- on the occurrences: the walk stops at the first that fails, and so do the moves
  induction os generalizing p with
  | nil => rfl
  | cons o os ih =>
    have hreached := reached_visit p o
    rw [walk_cons, walkMoves]
    cases hvisit : p.visit o with
    | error stopped => rw [hvisit] at hreached; exact hreached
    | ok q =>
      rw [hvisit] at hreached
      have hq : q = p.play (p.visitMoves o) := hreached
      simp only [play_append, ← hq]
      exact ih q

/-- A walk that is not stopped has played all its moves. -/
theorem eq_play_of_walk {p q : Pass} {os : List Occurrence} (h : p.walk os = .ok q) :
    q = p.play (p.walkMoves os) := by
  have hreached := reached_walk p os
  rw [h] at hreached
  exact hreached

/-- A walk over two lists comes by the end of the first. -/
theorem exists_of_walk_append {p q : Pass} {os os' : List Occurrence}
    (h : p.walk (os ++ os') = .ok q) : ∃ m, p.walk os = .ok m ∧ m.walk os' = .ok q := by
  rw [walk_append] at h
  cases hwalk : p.walk os with
  | error stopped =>
    rw [hwalk] at h
    exact absurd h (by simp [Except.bind])
  | ok m =>
    rw [hwalk] at h
    exact ⟨m, rfl, h⟩

end Pass

end GrammarIndex
