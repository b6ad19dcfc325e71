import GrammarIndex.Proofs.Analysis.Reanalysis
import GrammarIndex.Proofs.Registry.Slice

/-!
# What a pass records

Whatever a pass records goes into the registry and into its result, by different
code.  That the two agree is not true after every move: a kind is stated before the
definition or the reference that it belongs to is recorded, and in between the
registry lists a symbol that the result does not have.  Such a name is pending; at
the end of every occurrence nothing is.

## Main definitions

* `Move.pending` — the names that are pending after a move.
* `Pass.Recorded` — registry and result agree, but for the pending names.

## Main results

* `Pass.walk_pending` — what every move keeps holds after a walk, with nothing pending.
* `Pass.Recorded.perform` — a move keeps registry and result in agreement.
* `Registry.WellFormed.reflects_analyzeParsed` — **after an analysis, the registry
  reflects it**, or is silent about the document if a fault was found.
* `Registry.Reflects.analyzeParsed` — **and it reflects every other document as
  before.**
-/

namespace GrammarIndex

/-! ### Pending names -/

/-- The names that are pending after a move: a kind was stated for them, and no
definition or reference was recorded yet. -/
def Move.pending (names : List String) : Move → List String
  | state name _ _ => name :: names
  | suggest name _ _ => name :: names
  | define name _ => names.filter (· ≠ name)
  | refer name _ => names.filter (· ≠ name)
  | note _ _ _ => names
  | rescope _ => names

/-- The names that are pending after several moves. -/
def Move.pendingAfter (names : List String) (ms : List Move) : List String :=
  ms.foldl pending names

theorem Move.pendingAfter_append (names : List String) (ms ms' : List Move) :
    pendingAfter names (ms ++ ms') = pendingAfter (pendingAfter names ms) ms' :=
  List.foldl_append ..

/-- A definition settles its own name. -/
theorem pendingAfter_definition (name : String) (kind : Kind) (owner : Option String)
    (range : Range) : Move.pendingAfter [] (definition name kind owner range) = [] := by
  simp [Move.pendingAfter, definition, Move.pending]

/-- The meaning of a use leaves nothing pending that was not. -/
theorem pendingAfter_meaning (meaning : Meaning) (name : String) (range : Range) :
    Move.pendingAfter [] [meaning.move name range] = [] := by
  cases meaning <;> rfl

/-- **Nothing is pending at the end of an occurrence.**  What a parent, an action or
a virtual symbol announces is what it refers to. -/
theorem pendingAfter_occurrence (p : Pass) (grammar : String) (role : Role) (name : String)
    (range : Range) :
    Move.pendingAfter []
      (announcement grammar role name ++ p.recording grammar role name range) = [] := by
  -- whatever an occurrence announces or defines, it records before it ends
  rw [Move.pendingAfter_append]
  cases role with
  | grammar => exact pendingAfter_definition name .grammar none range
  | context =>
    rw [Pass.recording, Move.pendingAfter_append]
    exact congrArg (Move.pendingAfter · _) (pendingAfter_definition ..)
  | terminal =>
    rw [Pass.recording, Move.pendingAfter_append]
    exact congrArg (Move.pendingAfter · _) (pendingAfter_definition ..)
  | nonterminal =>
    rw [Pass.recording, Move.pendingAfter_append]
    exact congrArg (Move.pendingAfter · _) (pendingAfter_definition ..)
  | parameter rule => exact pendingAfter_definition ..
  | use use =>
    have hmeaning := pendingAfter_meaning (p.meaning grammar use name) name range
    cases use with
    -- a parent is announced and then referred to, and so are actions and virtual symbols
    | parent => simp [announcement, Pass.recording, Move.pendingAfter, Move.pending]
    | action =>
      simp [announcement, Pass.recording, Pass.meaning, Meaning.move, Move.pendingAfter,
        Move.pending]
    | virtual =>
      simp [announcement, Pass.recording, Pass.meaning, Meaning.move, Move.pendingAfter,
        Move.pending]
    | _ => exact hmeaning

namespace Pass

/-- What holds of a pass and the names that are pending, and is kept by every move, holds after
several moves. -/
theorem play_pending {motive : Pass → List String → Prop}
    (hperform : ∀ {p : Pass} {names : List String} (m : Move), motive p names →
      motive (p.perform m) (m.pending names))
    {p : Pass} {names : List String} (h : motive p names) (ms : List Move) :
    motive (p.play ms) (Move.pendingAfter names ms) := by
  induction ms generalizing p names with
  | nil => exact h
  | cons m ms ih => exact ih (hperform m h)

/-- **What every move keeps holds after a walk, with nothing pending.** -/
theorem walk_pending {motive : Pass → List String → Prop}
    (hperform : ∀ {p : Pass} {names : List String} (m : Move), motive p names →
      motive (p.perform m) (m.pending names))
    {p q : Pass} {os : List Occurrence} (h : motive p []) (hwalk : p.walk os = .ok q) :
    motive q [] := by
  induction os generalizing p with
  | nil =>
    rw [walk_nil, Except.ok.injEq] at hwalk
    exact hwalk ▸ h
  | cons o os ih =>
    rw [walk_cons] at hwalk
    cases hvisit : p.visit o with
    | error stopped =>
      rw [hvisit] at hwalk
      exact absurd hwalk (by simp [Except.bind])
    | ok p' =>
      rw [hvisit] at hwalk
      obtain ⟨name, range, -, -, hmoves, hp'⟩ := visit_eq_ok hvisit
      have hnext := play_pending hperform h (p.visitMoves o)
      -- an occurrence leaves nothing pending
      rw [hmoves, pendingAfter_occurrence, ← hmoves, ← hp'] at hnext
      exact ih hnext hwalk

/-! ### Registry and result -/

/-- Registry and result agree about the document of the pass, but for the names that
are pending. -/
structure Recorded (p : Pass) (names : List String) : Prop where
  /-- The registry has the ranges of the result. -/
  slice_eq : ∀ i, p.registry.slice p.document i = p.result.slice i
  /-- What occurs in the result is listed for the document. -/
  listed : ∀ i ∈ p.result.symbols, i ∈ p.registry.idsIn p.document
  /-- What is listed for the document occurs in the result, or is pending. -/
  settled : ∀ i ∈ p.registry.idsIn p.document,
    i ∈ p.result.symbols ∨ ∃ name ∈ names, p.registry.lookup? name = some i

/-- One more mention adds its range to those of its symbol. -/
theorem eraseDups_rangesOf_concat (mentions : List Mention) (i j : SymbolId) (range : Range) :
    (Analysis.rangesOf j (mentions ++ [⟨i, range⟩])).eraseDups =
      if i = j then addNew (Analysis.rangesOf i mentions).eraseDups range
      else (Analysis.rangesOf j mentions).eraseDups := by
  by_cases hij : i = j
  · subst hij
    have hlast : Analysis.rangesOf i (mentions ++ [⟨i, range⟩]) =
        Analysis.rangesOf i mentions ++ [range] := by simp [Analysis.rangesOf]
    rw [if_pos rfl, hlast, eraseDups_concat]
  · have hother : Analysis.rangesOf j (mentions ++ [⟨i, range⟩]) =
        Analysis.rangesOf j mentions := by simp [Analysis.rangesOf, hij]
    rw [if_neg hij, hother]

theorem slice_addDefinition_result (p : Pass) (i : SymbolId) (range : Range) (j : SymbolId) :
    (p.addDefinition i range).result.slice j =
      if i = j then (p.result.slice i).addDefinition range else p.result.slice j := by
  simp only [Analysis.slice, Analysis.definitionsOf, addDefinition, result,
    eraseDups_rangesOf_concat]
  by_cases hij : i = j
  · rw [if_pos hij, if_pos hij, hij]; rfl
  · rw [if_neg hij, if_neg hij]; rfl

theorem slice_addReference_result (p : Pass) (i : SymbolId) (range : Range) (j : SymbolId) :
    (p.addReference i range).result.slice j =
      if i = j then (p.result.slice i).addReference range else p.result.slice j := by
  simp only [Analysis.slice, Analysis.referencesOf, addReference, result,
    eraseDups_rangesOf_concat]
  by_cases hij : i = j
  · rw [if_pos hij, if_pos hij, hij]; rfl
  · rw [if_neg hij, if_neg hij]; rfl

theorem mem_symbols_addDefinition {p : Pass} {i j : SymbolId} {range : Range} :
    j ∈ (p.addDefinition i range).result.symbols ↔ j ∈ p.result.symbols ∨ j = i := by
  simp only [addDefinition, result, Analysis.symbols, List.map_append, List.mem_append,
    List.map_cons, List.map_nil, List.mem_singleton]
  exact or_right_comm

theorem mem_symbols_addReference {p : Pass} {i j : SymbolId} {range : Range} :
    j ∈ (p.addReference i range).result.symbols ↔ j ∈ p.result.symbols ∨ j = i := by
  simp only [addReference, result, Analysis.symbols, List.map_append, List.mem_append,
    List.map_cons, List.map_nil, List.mem_singleton]
  exact or_assoc.symm

namespace Recorded

variable {p : Pass} {names : List String}

/-- A name is mentioned. -/
theorem resolve (h : p.Recorded names) (name : String) : (p.resolve name).2.Recorded names where
  slice_eq := by
    intro i
    show (p.registry.resolve name).2.slice p.document i = p.result.slice i
    rw [Registry.slice_resolve]
    exact h.slice_eq i
  listed := by
    intro i hi
    show i ∈ (p.registry.resolve name).2.idsIn p.document
    rw [Registry.idsIn_resolve]
    exact h.listed i hi
  settled := by
    intro i hi
    change i ∈ (p.registry.resolve name).2.idsIn p.document at hi
    rw [Registry.idsIn_resolve] at hi
    rcases h.settled i hi with hresult | ⟨name', hname', hlookup⟩
    · exact Or.inl hresult
    · exact Or.inr ⟨name', hname', (Registry.Keeps.resolve p.registry name).lookup? hlookup⟩

theorem mono (h : p.Recorded names) {names' : List String} (hsub : names ⊆ names') :
    p.Recorded names' where
  slice_eq := h.slice_eq
  listed := h.listed
  settled := fun i hi => (h.settled i hi).imp_right
    fun ⟨name, hname, hlookup⟩ => ⟨name, hsub hname, hlookup⟩

/-- A kind is stated for a symbol, whose name is pending from then on. -/
theorem state (h : p.Recorded names) {name : String} {i : SymbolId}
    (hi : p.registry.lookup? name = some i) (statement : Statement) :
    Recorded { p with registry := p.registry.write p.document i (·.state p.document statement) }
      (name :: names) where
  slice_eq := by
    intro j
    rw [Registry.slice_write_of_eq (fun s => s.slice_state p.document p.document statement)]
    exact h.slice_eq j
  listed := by
    intro j hj
    rw [Registry.idsIn_write]
    split
    · exact mem_addNew.mpr (Or.inl (h.listed j hj))
    · exact h.listed j hj
  settled := by
    intro j hj
    simp only [Registry.idsIn_write] at hj
    have hcases : j ∈ p.registry.idsIn p.document ∨ j = i := by
      split at hj
      · exact mem_addNew.mp hj
      · exact Or.inl hj
    -- a symbol that is listed was listed before, or it is the one that was stated
    rcases hcases with hj | rfl
    · refine (h.settled j hj).imp_right ?_
      rintro ⟨name', hname', hlookup⟩
      exact ⟨name', List.mem_cons_of_mem _ hname', by rw [Registry.lookup?_write]; exact hlookup⟩
    · exact Or.inr ⟨name, List.mem_cons_self, by rw [Registry.lookup?_write]; exact hi⟩

/-- A definition or a reference is recorded for a symbol, in the registry and in the
result: its name is not pending any longer. -/
theorem settle (h : p.Recorded names) {name : String} {i : SymbolId}
    (hi : p.registry.lookup? name = some i) (hlt : i.index < p.registry.size)
    {change : Symbol → Symbol} {q : Pass} (hdocument : q.document = p.document)
    (hregistry : q.registry = p.registry.write p.document i change)
    (hslice : ∀ j, q.registry.slice q.document j = q.result.slice j)
    (hsymbols : ∀ j, j ∈ q.result.symbols ↔ j ∈ p.result.symbols ∨ j = i) :
    q.Recorded (names.filter (· ≠ name)) := by
  have hids : ∀ j, j ∈ q.registry.idsIn q.document ↔
      j ∈ p.registry.idsIn p.document ∨ j = i := by
    intro j
    rw [hregistry, hdocument, Registry.idsIn_write, if_pos ⟨rfl, hlt⟩]
    exact mem_addNew
  refine ⟨hslice, ?_, ?_⟩
  · intro j hj
    rw [hids]
    exact ((hsymbols j).mp hj).imp_left (h.listed j)
  · intro j hj
    rw [hsymbols]
    -- the symbol at hand is settled now, and others wait as they did
    by_cases hij : j = i
    · exact Or.inl (Or.inr hij)
    · have hj' : j ∈ p.registry.idsIn p.document := ((hids j).mp hj).resolve_right hij
      rcases h.settled j hj' with hresult | ⟨name', hname', hpending⟩
      · exact Or.inl (Or.inl hresult)
      · -- a name that leads elsewhere is another name
        have hne : name' ≠ name := by
          rintro rfl
          exact hij (Option.some.inj (hpending.symm.trans hi))
        have hlookup : q.registry.lookup? name' = some j := by
          rw [hregistry, Registry.lookup?_write]
          exact hpending
        exact Or.inr ⟨name', List.mem_filter.mpr ⟨hname', by simpa using hne⟩, hlookup⟩

theorem addDefinition (h : p.Recorded names) {name : String} {i : SymbolId}
    (hi : p.registry.lookup? name = some i) (hlt : i.index < p.registry.size) (range : Range) :
    (p.addDefinition i range).Recorded (names.filter (· ≠ name)) := by
  refine h.settle hi hlt rfl rfl ?_ ?_
  · intro j
    rw [slice_addDefinition_result, ← h.slice_eq, ← h.slice_eq]
    exact Registry.slice_addDefinition hlt p.document range j
  · exact fun j => mem_symbols_addDefinition

theorem addReference (h : p.Recorded names) {name : String} {i : SymbolId}
    (hi : p.registry.lookup? name = some i) (hlt : i.index < p.registry.size) (range : Range) :
    (p.addReference i range).Recorded (names.filter (· ≠ name)) := by
  refine h.settle hi hlt rfl rfl ?_ ?_
  · intro j
    rw [slice_addReference_result, ← h.slice_eq, ← h.slice_eq]
    exact Registry.slice_addReference hlt p.document range j
  · exact fun j => mem_symbols_addReference

/-! ### Moves and walks -/

/-- One move. -/
theorem perform (h : p.Recorded names) (hwf : p.registry.WellFormed) (m : Move) :
    (p.perform m).Recorded (m.pending names) := by
  cases m with
  | state name kind owner =>
    exact (h.resolve name).state (Registry.lookup?_resolve_self p.registry name)
      ⟨kind, owner.bind p.owner?⟩
  | suggest name kind owner =>
    simp only [Pass.perform, declareIfUnset, Registry.setKindIfUnset]
    split
    · exact (h.resolve name).state (Registry.lookup?_resolve_self p.registry name)
        ⟨kind, owner.bind p.owner?⟩
    · exact (h.resolve name).mono (List.subset_cons_self name names)
  | define name range =>
    exact (h.resolve name).addDefinition (Registry.lookup?_resolve_self p.registry name)
      (hwf.resolve_lt name) range
  | refer name range =>
    exact (h.resolve name).addReference (Registry.lookup?_resolve_self p.registry name)
      (hwf.resolve_lt name) range
  | note m range name => exact ⟨h.slice_eq, h.listed, h.settled⟩
  | rescope change => exact ⟨h.slice_eq, h.listed, h.settled⟩

theorem walk (h : p.Recorded []) (hwf : p.registry.WellFormed) {os : List Occurrence} {q : Pass}
    (hwalk : p.walk os = .ok q) : q.Recorded [] :=
  (walk_pending (motive := fun p names => p.registry.WellFormed ∧ p.Recorded names)
    (fun m ⟨hwf, h⟩ => ⟨wellFormed_perform hwf m, h.perform hwf m⟩) ⟨hwf, h⟩ hwalk).2

/-- A pass begins with an empty result, in a registry that has forgotten its document. -/
theorem analysisStart (source : String) {r : Registry} (h : r.WellFormed) (d : DocumentId)
    (text : String) : (analysisStart source r d text).Recorded [] where
  slice_eq := by
    intro i
    show (r.forget d).slice d i = .empty
    rw [h.slice_forget, if_pos rfl]
  listed := fun i hi => absurd hi List.not_mem_nil
  settled := by
    intro i hi
    change i ∈ (r.forget d).idsIn d at hi
    rw [Registry.idsIn_forget, if_pos rfl] at hi
    exact absurd hi List.not_mem_nil

end Recorded

end Pass

/-! ### Analyses -/

/-- What is left to be said of a document after an attempt to analyse it: nothing, if
a fault was found. -/
def Analysis.ofAttempt (d : DocumentId) (answer : Except Fault Analysis) : Analysis :=
  answer.toOption.getD (.empty d)

namespace Registry

/-- **After an analysis, the registry reflects it.** -/
theorem WellFormed.reflects_analyze {r : Registry} (h : r.WellFormed) (source : String)
    (d : DocumentId) (text : String) (tree : Tree) :
    let outcome := GrammarIndex.analyze source r d text tree
    outcome.2.Reflects d (.ofAttempt d outcome.1) := by
  -- at its end or where it was stopped, the pass is about `d` over a well-formed registry
  have hdocument :
      (Pass.reached ((analysisStart source r d text).walk tree.occurrences)).document = d := by
    rw [Pass.reached_walk, Pass.document_play]
    rfl
  have hwf : (Pass.reached ((analysisStart source r d text).walk
      tree.occurrences)).registry.WellFormed := by
    rw [Pass.reached_walk]
    exact Pass.wellFormed_play (h.forget d) _
  rw [analyze_eq]
  cases hwalk : (analysisStart source r d text).walk tree.occurrences with
  | ok p =>
    rw [hwalk] at hdocument hwf
    have hrecorded : p.Recorded [] :=
      (Pass.Recorded.analysisStart source h d text).walk (h.forget d) hwalk
    have hp : p.document = d := hdocument
    refine hwf.reflects_iff.mpr ⟨?_, ?_⟩
    · rw [← hp]
      exact hrecorded.slice_eq
    · intro i
      rw [← hp]
      exact ⟨fun hi => (hrecorded.settled i hi).resolve_right (by simp), hrecorded.listed i⟩
  | error stopped =>
    rw [hwalk] at hdocument hwf
    have hp : stopped.reached.document = d := hdocument
    show (stopped.reached.registry.forget stopped.reached.document).Reflects d (.empty d)
    rw [hp]
    exact hwf.reflects_forget_self d

/-- **After an attempt to analyse what the parser made of a document, the registry
reflects the analysis**, or nothing of the document if there was a fault. -/
theorem WellFormed.reflects_analyzeParsed {r : Registry} (h : r.WellFormed) (source : String)
    (d : DocumentId) (text : String) (parsed : Except ParseError Tree) :
    let outcome := GrammarIndex.analyzeParsed source r d text parsed
    outcome.2.Reflects d (.ofAttempt d outcome.1) := by
  cases parsed with
  | ok tree => exact h.reflects_analyze source d text tree
  | error e => exact h.reflects_forget_self d

/-- **An analysis leaves what the registry reflects of other documents.** -/
theorem Reflects.analyzeParsed {r : Registry} {d' : DocumentId} {a : Analysis}
    (hr : r.Reflects d' a) (h : r.WellFormed) (source : String) {d : DocumentId} (hd : d ≠ d')
    (text : String) (parsed : Except ParseError Tree) :
    (GrammarIndex.analyzeParsed source r d text parsed).2.Reflects d' a := by
  -- the document forgotten, only placeholders have come in addition
  have hforgotten : (r.forget d).Reflects d' a := (h.reflects_forget_iff hd).mpr hr
  cases parsed with
  | error e => exact hforgotten
  | ok tree =>
    refine ((h.analyze source d text tree).reflects_forget_iff hd).mp ?_
    rw [h.forget_analyze]
    exact hforgotten.mention (h.forget d) _

end Registry

end GrammarIndex
