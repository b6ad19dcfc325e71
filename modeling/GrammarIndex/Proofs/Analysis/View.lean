import GrammarIndex.Proofs.Analysis.Reanalysis
import GrammarIndex.Proofs.Registry.Standing

/-!
# A pass is its view

A view knows names and kinds, and nothing of the registry that a pass works on.  That
is enough: as long as the registry stands as the view says, the two go on alike at
every occurrence, stop at the same fault, and end with the same finding.  So what an
analysis finds is a function of the kinds that names have once the document is
forgotten.

## Main definitions

* `Pass.Shows` — a pass that looks as a view says.

## Main results

* `Pass.Shows.visit`, `Pass.Shows.walk` — a pass goes on looking like its view.
* `Registry.WellFormed.gives_analyze` — **an analysis gives what its view finds.**
* `gives_of_kindNamed?_eq` — **an analysis sees of other documents the kinds that names
  have, and nothing else.**
-/

namespace GrammarIndex

namespace Registry

/-- What was read in a registry reads the same in every later one. -/
theorem Keeps.reads {r r' : Registry} (h : r.Keeps r') {m : Mention} {n : NamedMention}
    (hread : r.Reads m n) : r'.Reads m n := by
  obtain ⟨⟨s, hs, hname⟩, hrange⟩ := hread
  obtain ⟨s', hs', -, hname'⟩ := h.symbol? hs
  exact ⟨⟨s', hs', hname'.trans hname⟩, hrange⟩

theorem Keeps.forall₂_reads {r r' : Registry} (h : r.Keeps r') {ms : List Mention}
    {ns : List NamedMention} (hread : List.Forall₂ r.Reads ms ns) :
    List.Forall₂ r'.Reads ms ns :=
  hread.imp fun _ _ => h.reads

theorem WellFormed.reads_of_lookup? {r : Registry} (h : r.WellFormed) {name : String}
    {i : SymbolId} (hi : r.lookup? name = some i) (range : Range) :
    r.Reads ⟨i, range⟩ ⟨name, range⟩ :=
  ⟨h.lookup?_eq_some_iff.mp hi, rfl⟩

end Registry

namespace Pass

/-- The pass looks as the view says: the registry stands as it does, and what was found
reads the same. -/
structure Shows (p : Pass) (v : View) : Prop where
  /-- The document is the same. -/
  document : p.document = v.document
  /-- The lines are the same. -/
  lines : p.lines = v.lines
  /-- The mistakes are the same. -/
  log : p.log = v.log
  /-- The current grammar declares the same names. -/
  scope : p.scope = v.scope
  /-- The registry is well formed. -/
  wellFormed : p.registry.WellFormed
  /-- Whatever the document has said, it has said last. -/
  settled : p.registry.Settled p.document
  /-- Every name stands as it does in the view. -/
  standing : ∀ name, p.registry.standing p.document name = v.standing name
  /-- The definitions read the same. -/
  definitions : List.Forall₂ p.registry.Reads p.definitions v.definitions
  /-- The references read the same. -/
  references : List.Forall₂ p.registry.Reads p.references v.references

namespace Shows

variable {p : Pass} {v : View}

theorem kindNamed? (h : p.Shows v) : p.registry.kindNamed? = v.kindOf := by
  funext name
  rw [← Registry.kind_standing _ p.document, h.standing]
  rfl

/-- A pass begins as its view. -/
theorem start {r : Registry} (h : r.WellFormed) (source : String) (d : DocumentId)
    (text : String) :
    (analysisStart source r d text).Shows
      (.start (r.forget d).kindNamed? d text source) where
  document := rfl
  lines := rfl
  log := rfl
  scope := rfl
  wellFormed := h.forget d
  settled := h.settled_forget d
  standing := h.standing_forget d
  definitions := .nil
  references := .nil

/-! ### What a pass does -/

/-- A name is mentioned: nothing is seen of it. -/
theorem resolve (h : p.Shows v) (name : String) : (p.resolve name).2.Shows v where
  document := h.document
  lines := h.lines
  log := h.log
  scope := h.scope
  wellFormed := h.wellFormed.resolve name
  settled := h.settled.resolve name
  standing := fun name' => by
    show (p.registry.resolve name).2.standing p.document name' = v.standing name'
    rw [h.wellFormed.standing_resolve]
    exact h.standing name'
  definitions := (Registry.Keeps.resolve p.registry name).forall₂_reads h.definitions
  references := (Registry.Keeps.resolve p.registry name).forall₂_reads h.references

/-- The document says something about a symbol, which changes the standing of its name. -/
theorem changedAt (h : p.Shows v) {name : String} {i : SymbolId}
    (hi : p.registry.lookup? name = some i) {r' : Registry} {change : Symbol → Symbol}
    {f : Standing → Standing} (hr' : p.registry.ChangedAt r' i change)
    (hwf : r'.WellFormed) (hkeeps : p.registry.Keeps r')
    (hchange : ∀ s, p.registry.symbol? i = some s →
      (change s).Settled p.document ∧
        (change s).standing p.document = f (s.standing p.document)) :
    Shows { p with registry := r' } (v.change name f) where
  document := h.document
  lines := h.lines
  log := h.log
  scope := h.scope
  wellFormed := hwf
  settled := h.settled.changedAt hr' fun s hs => (hchange s hs).1
  standing := fun name' => by
    rw [hr'.standing_eq h.wellFormed hi fun s hs => (hchange s hs).2, h.standing]
    rfl
  definitions := hkeeps.forall₂_reads h.definitions
  references := hkeeps.forall₂_reads h.references

/-- A symbol is declared and defined. -/
theorem define (h : p.Shows v) (name : String) (kind : Kind) (parent : Option SymbolId)
    (range : Range) : (p.define name kind parent range).2.Shows (v.define name kind range) := by
  let q := (p.resolve name).2
  let i := (p.resolve name).1
  have hq : q.Shows v := h.resolve name
  have hi : q.registry.lookup? name = some i := Registry.lookup?_resolve_self p.registry name
  have hspeech := Symbol.isSpeech_state p.document ⟨kind, parent⟩
  have hspeech' := Symbol.isSpeech_addDefinition p.document range
  have hchanged := (Registry.changedAt_write q.registry p.document i
    (·.state p.document ⟨kind, parent⟩)).trans
      (Registry.changedAt_write _ p.document i (·.addDefinition p.document range))
  have hkeeps := (Registry.Keeps.write hspeech q.registry i).trans (.write hspeech' _ i)
  have hwf := (hq.wellFormed.write hspeech i).write hspeech' i
  have hshows := hq.changedAt (f := (·.settle kind)) hi hchanged hwf hkeeps fun s hs =>
    (hq.settled i s hs).define ⟨kind, parent⟩ range
  have hread := hwf.reads_of_lookup? (hkeeps.lookup? hi) range
  exact { hshows with
    definitions := List.rel_append hshows.definitions (.cons hread .nil) }

/-- A symbol is declared by a use of it. -/
theorem declareIfUnset (h : p.Shows v) (name : String) (kind : Kind) (parent : Option SymbolId) :
    (p.declareIfUnset name kind parent).2.Shows (v.change name (·.suggest kind)) := by
  let q := (p.resolve name).2
  let i := (p.resolve name).1
  have hq : q.Shows v := h.resolve name
  have hi : q.registry.lookup? name = some i := Registry.lookup?_resolve_self p.registry name
  have hspeech := Symbol.isSpeech_state p.document ⟨kind, parent⟩
  -- the pass decides by the kind of the symbol, and the view by that of the standing
  have hkind : q.registry.kind? i = (v.standing name).kind := by
    have hnamed := congrFun hq.kindNamed? name
    rw [Registry.kindNamed?, hi, Option.bind_some] at hnamed
    exact hnamed
  show Shows { q with registry := (q.registry.setKindIfUnset p.document i kind parent).2 } _
  by_cases haccepts : ((v.standing name).kind.all (· = kind)) = true
  · -- the statement is taken
    rw [Registry.setKindIfUnset, hkind, if_pos haccepts]
    refine hq.changedAt hi (Registry.changedAt_write q.registry p.document i _)
      (hq.wellFormed.write hspeech i) (.write hspeech q.registry i) ?_
    intro s hs
    have hs_kind : s.kind? = (v.standing name).kind := by
      rw [← hkind, Registry.kind?, hs]
      rfl
    have haccepts' : s.kind?.all (· = kind) = true := hs_kind ▸ haccepts
    obtain ⟨hsettled, hstanding⟩ := (hq.settled i s hs).state ⟨kind, parent⟩ haccepts'
    refine ⟨hsettled, hstanding.trans ?_⟩
    rw [Standing.suggest, if_pos]
    exact haccepts'
  · -- the statement is refused
    have hsame : v.change name (·.suggest kind) = v :=
      View.change_eq_self (by rw [Standing.suggest, if_neg haccepts])
    rw [Registry.setKindIfUnset, hkind, if_neg haccepts, hsame]
    exact hq

/-- A symbol is referenced. -/
theorem addReference (h : p.Shows v) (name : String) (range : Range) :
    ((p.resolve name).2.addReference (p.resolve name).1 range).Shows
      { v with references := v.references ++ [⟨name, range⟩] } := by
  let q := (p.resolve name).2
  let i := (p.resolve name).1
  have hq : q.Shows v := h.resolve name
  have hi : q.registry.lookup? name = some i := Registry.lookup?_resolve_self p.registry name
  have hspeech := Symbol.isSpeech_addReference p.document range
  have hkeeps := Registry.Keeps.write hspeech q.registry i
  have hwf := hq.wellFormed.write hspeech i
  have hsame : v.change name id = v := View.change_eq_self rfl
  have hshows := hq.changedAt (f := id) hi (Registry.changedAt_write q.registry p.document i _)
    hwf hkeeps fun s hs => ⟨(hq.settled i s hs).addReference range, rfl⟩
  rw [hsame] at hshows
  have hread := hwf.reads_of_lookup? (hkeeps.lookup? hi) range
  exact { hshows with
    references := List.rel_append hshows.references (.cons hread .nil) }

/-- A mistake is noted. -/
theorem note (h : p.Shows v) (m : Mistake) (range : Range) (name : String) :
    (p.note m range name).Shows { v with log := v.log.note m range name } :=
  { h with log := congrArg (·.note m range name) h.log }

/-- The names of the current grammar change. -/
theorem rescope (h : p.Shows v) (change : Scope → Scope) :
    Shows { p with scope := change p.scope } { v with scope := change v.scope } :=
  { h with scope := congrArg change h.scope }

/-! ### Occurrences -/

theorem meaning (h : p.Shows v) (grammar : String) (use : Use) (name : String) :
    p.meaning grammar use name = v.scope.meaning v.kindOf grammar use name := by
  rw [← h.scope, ← h.kindNamed?]
  cases use <;> rfl

theorem recordMeaning (h : p.Shows v) (meaning : Meaning) (name : String) (range : Range) :
    (p.recordMeaning meaning name range).Shows (v.recordMeaning meaning name range) := by
  cases meaning with
  | symbol qualified => exact h.addReference qualified range
  | mistake m => exact h.note m range name

/-- What an occurrence does before and after its range is found. -/
theorem record (h : p.Shows v) (grammar : String) (role : Role) (name : String) (range : Range) :
    ((p.announce grammar role name).record grammar role name range).Shows
      (v.record grammar role name range) := by
  cases role with
  | grammar => exact (h.rescope fun _ => .empty).define name .grammar none range
  | context =>
    exact (h.define (qualify grammar name) .context _ range).rescope (·.enter .context name)
  | terminal =>
    exact (h.define (qualify grammar name) .terminal _ range).rescope (·.enter .terminal name)
  | nonterminal =>
    exact (h.define (qualify grammar name) .nonterminal _ range).rescope
      (·.enter .nonterminal name)
  | parameter rule => exact h.define (qualify (qualify grammar rule) name) .parameter _ range
  -- any use but of a parent, an action or a virtual symbol declares nothing
  | use use =>
    have hmeaning : (p.recordMeaning (p.meaning grammar use name) name range).Shows
        (v.recordMeaning (v.scope.meaning v.kindOf grammar use name) name range) := by
      rw [← h.meaning]
      exact h.recordMeaning _ name range
    cases use with
    | parent =>
      exact ((h.declareIfUnset name .grammar none).addReference name range).rescope
        (·.enter (.use .parent) name)
    | action =>
      exact (h.declareIfUnset (qualify grammar name) .action _).addReference _ range
    | virtual =>
      exact (h.declareIfUnset (qualify grammar name) .virtual _).addReference _ range
    | _ => exact hmeaning

/-- The two find the same range, or the same fault. -/
theorem rangeOf (h : p.Shows v) (span : Span) :
    p.rangeOf span =
      match v.lines.range? span with
      | some range => .ok range
      | none => .error (.spanOutOfBounds v.document span v.lines.length) := by
  unfold Pass.rangeOf
  cases hrange : v.lines.range? span <;> simp only [h.lines, h.document, hrange]

/-- **At every occurrence, the pass goes on as its view does**, or stops at the same
fault. -/
theorem visit (h : p.Shows v) (o : Occurrence) :
    EndAlike (fun stopped fault => stopped.fault = fault) Shows (p.visit o) (v.visit o) := by
  unfold Pass.visit View.visit
  cases o.name? with
  | none => exact .error (by rw [h.document])
  | some name =>
    have hrange : (p.announce o.grammar o.role name).rangeOf o.token.span =
        p.rangeOf o.token.span := by
      rw [announce_eq, rangeOf_play]
    simp only [hrange, h.rangeOf]
    cases v.lines.range? o.token.span with
    | none => exact .error rfl
    | some range => exact .ok (h.record o.grammar o.role name range)

theorem walk (h : p.Shows v) (os : List Occurrence) :
    EndAlike (fun stopped fault => stopped.fault = fault) Shows (p.walk os) (v.walk os) :=
  .foldlM (fun o _ h => h.visit o) h

/-- Where the pass comes to its end, so does its view. -/
theorem exists_walk (h : p.Shows v) {q : Pass} {os : List Occurrence} (hwalk : p.walk os = .ok q) :
    ∃ w, v.walk os = .ok w ∧ q.Shows w := by
  have hend := h.walk os
  rw [hwalk] at hend
  exact hend.exists_eq_ok

end Shows

end Pass

/-! ### Analyses -/

namespace Registry

/-- **An analysis gives what its view finds**, where names have the kinds that they
have once the document is forgotten. -/
theorem WellFormed.gives_analyze {r : Registry} (h : r.WellFormed) (source : String)
    (d : DocumentId) (text : String) (tree : Tree) :
    Gives (GrammarIndex.analyze source r d text tree)
      (findingOf source (r.forget d).kindNamed? d text tree) := by
  have hwalk := (Pass.Shows.start h source d text).walk tree.occurrences
  rw [analyze_eq, findingOf]
  generalize (analysisStart source r d text).walk tree.occurrences = outcome,
    View.walk _ tree.occurrences = viewed at hwalk ⊢
  cases hwalk with
  | error hfault => exact .error hfault
  | ok hshows =>
    exact .ok ⟨hshows.definitions, hshows.references, congrArg DiagnosticLog.entries hshows.log⟩

end Registry

/-- **An analysis sees of other documents the kinds that names have, and nothing else.**
After two histories that leave every name with the same kind once the document is
forgotten, or with none in both, the analyses of a document give one and the same
answer: the same fault, or the same diagnostics, and definitions and references that
agree entry by entry in range and qualified name.  Handles, owners, the documents that
have stated the kinds, and their ranges may all be different. -/
theorem gives_of_kindNamed?_eq (history₁ history₂ : List Registry.Event) (source : String)
    (d : DocumentId) (text : String) (tree : Tree)
    (hkinds : ∀ name, ((Registry.after history₁).forget d).kindNamed? name =
      ((Registry.after history₂).forget d).kindNamed? name) :
    ∃ answer : Except Fault Finding,
      Registry.Gives (analyze source (Registry.after history₁) d text tree) answer ∧
        Registry.Gives (analyze source (Registry.after history₂) d text tree) answer := by
  have hsame : ((Registry.after history₁).forget d).kindNamed? =
      ((Registry.after history₂).forget d).kindNamed? := funext hkinds
  have h₁ := (Registry.wellFormed_after history₁).gives_analyze source d text tree
  have h₂ := (Registry.wellFormed_after history₂).gives_analyze source d text tree
  rw [← hsame] at h₂
  exact ⟨_, h₁, h₂⟩

/-- One document states that `B.X` is a terminal. -/
def statedOnce : List Registry.Event :=
  [.operation (.resolve "B.X"), .operation (.setKind ⟨1⟩ ⟨0⟩ .terminal none)]

/-- Another document defines `B.X` as a terminal, under another handle and an owner, after
a third one has taken it for an action. -/
def statedTwice : List Registry.Event :=
  [.operation (.resolve "B"), .operation (.resolve "B.X"),
    .operation (.setKindIfUnset ⟨3⟩ ⟨1⟩ .action none),
    .operation (.setKind ⟨2⟩ ⟨1⟩ .terminal (some ⟨0⟩)),
    .operation (.addDefinition ⟨2⟩ ⟨1⟩ ⟨⟨0, 4⟩, ⟨0, 5⟩⟩)]

/-- `B.X` is a terminal to either, and the terminal that the grammar `A` takes from its
parent `B` is found in both. -/
theorem gives_of_kindNamed?_eq_statedTwice :
    let r₁ := Registry.after statedOnce
    let r₂ := Registry.after statedTwice
    let tree : Tree := ⟨[⟨⟨"A", ⟨0, 1⟩⟩, [⟨"B", ⟨2, 3⟩⟩], [],
      [.terminal ⟨"T", ⟨4, 5⟩⟩ (.reference ⟨"X", ⟨6, 7⟩⟩)], []⟩]⟩
    (∀ name, (r₁.forget ⟨0⟩).kindNamed? name = (r₂.forget ⟨0⟩).kindNamed? name) ∧
      ∃ answer : Except Fault Finding,
        Registry.Gives (analyze "hime" r₁ ⟨0⟩ "A:B{T->X}" tree) answer ∧
          Registry.Gives (analyze "hime" r₂ ⟨0⟩ "A:B{T->X}" tree) answer := by
  intro r₁ r₂ tree
  have hkinds : ∀ name, (r₁.forget ⟨0⟩).kindNamed? name = (r₂.forget ⟨0⟩).kindNamed? name := by
    intro name
    have hnames₁ : (r₁.forget ⟨0⟩).names = ⟨[("B.X", ⟨0⟩)]⟩ := by decide
    have hnames₂ : (r₂.forget ⟨0⟩).names = ⟨[("B", ⟨0⟩), ("B.X", ⟨1⟩)]⟩ := by decide
    have hB : (r₂.forget ⟨0⟩).kind? ⟨0⟩ = none := by decide
    have hX : (r₁.forget ⟨0⟩).kind? ⟨0⟩ = (r₂.forget ⟨0⟩).kind? ⟨1⟩ := by decide
    simp only [Registry.kindNamed?, Registry.lookup?, hnames₁, hnames₂, Table.get?_cons]
    by_cases hname : "B" = name
    · subst hname
      simp [hB, Table.get?]
    · by_cases hname' : "B.X" = name
      · simp [hname, hname', hX]
      · simp [hname, hname', Table.get?]
  exact ⟨hkinds, gives_of_kindNamed?_eq statedOnce statedTwice "hime" ⟨0⟩ "A:B{T->X}" tree hkinds⟩

end GrammarIndex
