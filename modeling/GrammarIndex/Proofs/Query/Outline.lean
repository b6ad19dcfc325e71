import GrammarIndex.Proofs.Analysis.Definitions
import GrammarIndex.Proofs.Query.Listings

/-!
# Names in the outline

A symbol does not keep the name that is written in the source, nor the name of its owner.  Both are
recovered from the qualified name, with the parent of the statement that decides, and this may come
from another document, from a use as well as from a definition.  If no name has a dot, whoever
states anything about a symbol gives it the same owner: the qualified name up to its last dot.

## Main definitions

* `Tree.DotlessNames` — no name in a document has a dot.
* `NamedWithin` — the law that all statements of such documents keep to.
* `SymbolInfo.Shows` — an entry shows the name of a token as it is written.

## Main results

* `Registry.displayed_of_told` — the name and the owner that are recovered.
* `Registry.documentSymbols_as_written` — **the outline of a document shows the names that it
  declares, as they are written**, whatever other documents say.
-/

namespace GrammarIndex

/-! ### Names without dots -/

/-- No name in the document has a dot: neither one that is written as it stands, nor that of a
virtual symbol, which is written as a literal. -/
structure Tree.DotlessNames (tree : Tree) : Prop where
  /-- A name that is written as it stands has no dot. -/
  written : ∀ o ∈ tree.occurrences, o.role.isLiteral = false → Dotless o.token.text
  /-- Neither has the name of a virtual symbol. -/
  virtual : ∀ o ∈ tree.occurrences, o.role = .use .virtual → ∀ name ∈ o.name?, Dotless name

instance (tree : Tree) : Decidable tree.DotlessNames :=
  decidable_of_iff
    ((∀ o ∈ tree.occurrences, o.role.isLiteral = false → Dotless o.token.text) ∧
      ∀ o ∈ tree.occurrences, o.role = .use .virtual → ∀ name ∈ o.name?, Dotless name)
    ⟨fun h => ⟨h.1, h.2⟩, fun h => ⟨h.written, h.virtual⟩⟩

/-- The name is one without a dot, in the scope of its owner if it has one. -/
def NamedWithin (name : String) (_ : Kind) (owner : Option String) : Prop :=
  ∃ own, Dotless own ∧ name = qualifyIn owner own

namespace Tree.DotlessNames

variable {tree : Tree}

/-- Whatever a document states is stated of a name without a dot, in the scope of its owner. -/
theorem namedWithin (h : tree.DotlessNames) {o : Occurrence} (ho : o ∈ tree.occurrences)
    {name : String} {kind : Kind} {owner : Option String} (hsaid : o.Says name kind owner) :
    NamedWithin name kind owner := by
  obtain ⟨own, hown, hname⟩ := hsaid.name_eq
  rw [← hsaid.owner_eq] at hname
  refine ⟨own, ?_, hname⟩
  rcases hsaid.written with hliteral | hvirtual
  · rw [Occurrence.name?_of_not_isLiteral hliteral] at hown
    exact Option.some.inj hown ▸ h.written o ho hliteral
  · exact h.virtual o ho hvirtual own hown

theorem declared (h : tree.DotlessNames) {t : Token} {owner : Option String}
    (ht : tree.Introduces t owner) : Dotless t.text := by
  obtain ⟨o, ho, huse, rfl, -⟩ := Tree.introduces_iff.mp ht
  exact h.written o ho (Role.isLiteral_of_not_isUse huse)

end Tree.DotlessNames

/-- The entry shows the declaration of the token: at the range of the token, by the name that is
written there, and in the scope that it is declared in. -/
structure SymbolInfo.Shows (info : SymbolInfo) (d : DocumentId) (text : String) (t : Token)
    (owner : Option String) : Prop where
  /-- The entry is about the document, -/
  document_eq : info.location.document = d
  /-- at the range of the token, -/
  range_eq : (LineIndex.ofText text).range? t.span = some info.location.range
  /-- by the text of the token, -/
  name_eq : info.name = t.text
  /-- and in the scope that owns it. -/
  container_eq : info.container = owner

namespace Registry

variable {r : Registry} {i : SymbolId} {s : Symbol} {d : DocumentId} {source text : String}
  {tree : Tree} {a : Analysis}

/-! ### Names and owners recovered -/

/-- **The name and the owner of a symbol are recovered** from its qualified name, whichever of its
statements decides. -/
theorem displayed_of_told (h : r.Told NamedWithin) (hs : r.symbol? i = some s) {st : Statement}
    (hst : s.effective? = some st) {own : String} {owner : Option String} (hown : Dotless own)
    (hname : s.qualifiedName = qualifyIn owner own) :
    r.containerOf? s = owner ∧ r.displayName s = own := by
  have htells := EveryStatement.of_effective? h hs hst
  have hparent : s.parent? = st.parent := by rw [Symbol.parent?, hst, Option.bind_some]
  obtain ⟨kind, parent⟩ := st
  -- the parent of the statement takes the name apart at its last dot, as the owner does
  cases parent with
  | none =>
    obtain ⟨own', hown', heq⟩ := htells
    obtain ⟨rfl, rfl⟩ := (qualifyIn_inj hown' hown).mp (heq.symm.trans hname)
    have hcontainer : r.containerOf? s = none := by rw [containerOf?, hparent]; rfl
    refine ⟨hcontainer, ?_⟩
    rw [displayName, hcontainer]
    exact hname
  | some j =>
    obtain ⟨t, ht, own', hown', heq⟩ := htells
    obtain ⟨rfl, rfl⟩ := (qualifyIn_inj hown' hown).mp (heq.symm.trans hname)
    have hcontainer : r.containerOf? s = some t.qualifiedName := by
      rw [containerOf?, hparent, Option.bind_some, ht, Option.map_some]
    refine ⟨hcontainer, ?_⟩
    rw [displayName, hcontainer, hname]
    exact nameWithin_qualify t.qualifiedName own'

/-- The entry for a definition shows the token that declares it. -/
theorem shows_of_told (h : r.Told NamedWithin) (hs : r.symbol? i = some s)
    (hstated : s.statements.contains d = true) {t : Token} {owner : Option String}
    (hdotless : Dotless t.text) (hname : s.qualifiedName = qualifyIn owner t.text) {range : Range}
    (hrange : (LineIndex.ofText text).range? t.span = some range) (kind : Kind) :
    SymbolInfo.Shows ⟨r.displayName s, s.qualifiedName, kind, ⟨d, range⟩, r.containerOf? s⟩ d text t
      owner := by
  obtain ⟨st, hst⟩ := Symbol.exists_effective? hstated
  obtain ⟨hcontainer, hdisplayed⟩ := displayed_of_told h hs hst hdotless hname
  exact ⟨rfl, hrange, hdisplayed, hcontainer⟩

/-! ### Outlines -/

namespace Defines

variable (h : r.Defines d text tree) (hwf : r.WellFormed) (htold : r.Told NamedWithin)
  (hdotless : tree.DotlessNames)

include h hwf htold hdotless

/-- Every declaration has an entry. -/
theorem exists_entry {t : Token} {owner : Option String} (ht : tree.Introduces t owner) :
    ∃ info ∈ r.documentSymbols d, info.Shows d text t owner := by
  obtain ⟨range, hrange, i, s, hs, hname, hdefined⟩ := h.exists_symbol ht
  have hstated := h.stated hs (List.ne_nil_of_mem hdefined)
  obtain ⟨st, hst⟩ := Symbol.exists_effective? hstated
  have hkind : s.kind? = some st.kind := by rw [Symbol.kind?, hst, Option.map_some]
  have hlists : r.Lists ⟨r.displayName s, s.qualifiedName, st.kind, ⟨d, range⟩, r.containerOf? s⟩ :=
    .definition hs hkind hdefined
  exact ⟨_, hwf.mem_documentSymbols_iff.mpr ⟨hlists, rfl⟩,
    shows_of_told htold hs hstated (hdotless.declared ht) hname hrange st.kind⟩

/-- Every entry is that of a declaration. -/
theorem exists_introduces {info : SymbolInfo} (hinfo : info ∈ r.documentSymbols d) :
    ∃ t owner, tree.Introduces t owner ∧ info.Shows d text t owner := by
  obtain ⟨hlists, hdocument⟩ := hwf.mem_documentSymbols_iff.mp hinfo
  obtain @⟨i, s, kind, ⟨d', range⟩, hs, hkind, hdefined⟩ := hlists
  obtain rfl : d' = d := hdocument
  obtain ⟨t, owner, ht, hname, hrange⟩ := h.exists_declared hs range hdefined
  have hstated := h.stated hs (List.ne_nil_of_mem hdefined)
  exact ⟨t, owner, ht,
    shows_of_told htold hs hstated (hdotless.declared ht) hname hrange kind⟩

end Defines

/-- **The outline shows names as they are written.**  Documents without dots in their names are
analysed, with whatever outcome, and forgotten; one of them was last analysed with success, and not
forgotten since.  Then its outline has an entry for every name that it declares, and no others:
at the range of the token, by the text of the token, and in the scope that it is declared in,
whatever other documents say about the same symbol. -/
theorem documentSymbols_as_written {history before later : List Event}
    (hhistory : history = before ++ .analysis source d text (.ok tree) :: later)
    (hwhole : ∀ event ∈ history, event.isWhole = true)
    (hdotless : ∀ event ∈ history, ∀ tree ∈ event.tree?, tree.DotlessNames)
    (hok : (GrammarIndex.analyze source (after before) d text tree).1 = .ok a)
    (hothers : ∀ event ∈ later, event.document? ≠ some d) :
    let infos := (after history).documentSymbols d
    (∀ t owner, tree.Introduces t owner → ∃ info ∈ infos, info.Shows d text t owner) ∧
      ∀ info ∈ infos, ∃ t owner, tree.Introduces t owner ∧ info.Shows d text t owner := by
  have hwf : (after history).WellFormed := wellFormed_after history
  -- every statement puts its symbol into the scope in which the name is written
  have htold : (after history).Told NamedWithin :=
    told_after hwhole fun event he tree htree o ho _ _ _ hsaid =>
      (hdotless event he tree htree).namedWithin ho hsaid
  have hlast : Event.analysis source d text (.ok tree) ∈ history :=
    hhistory ▸ List.mem_append_right _ List.mem_cons_self
  have hlater : ∀ event ∈ later, event.isWhole = true := fun event he =>
    hwhole event (hhistory ▸ List.mem_append_right _ (List.mem_cons_of_mem _ he))
  -- the last analysis of the document has defined its tokens, and later events leave them
  have hdefines : (after history).Defines d text tree := hhistory ▸ defines_after hok hlater hothers
  have hnames := hdotless _ hlast tree rfl
  exact ⟨fun t owner ht => hdefines.exists_entry hwf htold hnames ht,
    fun info hinfo => hdefines.exists_introduces hwf htold hnames hinfo⟩

/-- A grammar `G` with a terminal `X` and a template `S` that has a parameter `P`. -/
def terminalAndTemplate : Tree :=
  ⟨[⟨⟨"G", ⟨0, 1⟩⟩, [], [], [.terminal ⟨"X", ⟨2, 3⟩⟩ (.atom ⟨"x", ⟨4, 5⟩⟩)],
    [⟨⟨"S", ⟨6, 7⟩⟩, [⟨"P", ⟨8, 9⟩⟩], .name ⟨"P", ⟨11, 12⟩⟩⟩]⟩]⟩

/-- The same names in the same grammar, for a variable `X` and an action `S`. -/
def variableAndAction : Tree :=
  ⟨[⟨⟨"G", ⟨0, 1⟩⟩, [], [], [], [⟨⟨"X", ⟨2, 3⟩⟩, [], .action ⟨"S", ⟨5, 6⟩⟩⟩]⟩]⟩

/-- Two documents share a grammar.  The outline of the one shows its terminal and its template
under their names, though the other is analysed before it and once more after it, and makes the
terminal a variable. -/
theorem documentSymbols_as_written_shared :
    let before : List Event := [.analysis "hime" ⟨1⟩ "G{X>@S}" (.ok variableAndAction)]
    let tree := terminalAndTemplate
    let text := "G{X>x;S<P>P}"
    let history := before ++ .analysis "hime" ⟨0⟩ text (.ok tree) :: before
    let infos := (after history).documentSymbols ⟨0⟩
    (∀ event ∈ history, event.isWhole = true) ∧
      (∀ event ∈ history, ∀ tree ∈ event.tree?, tree.DotlessNames) ∧
      (∀ event ∈ before, event.document? ≠ some ⟨0⟩) ∧
      (∃ a, (GrammarIndex.analyze "hime" (after before) ⟨0⟩ text tree).1 = .ok a) ∧
      (infos.map fun info => (info.name, info.kind, info.container)).Perm
        [("G", .grammar, none), ("X", .nonterminal, some "G"), ("S", .nonterminal, some "G"),
          ("P", .parameter, some "G.S")] ∧
      (∀ t owner, tree.Introduces t owner → ∃ info ∈ infos, info.Shows ⟨0⟩ text t owner) ∧
      ∀ info ∈ infos, ∃ t owner, tree.Introduces t owner ∧ info.Shows ⟨0⟩ text t owner := by
  intro before tree text history infos
  have hwhole : ∀ event ∈ history, event.isWhole = true := by decide +kernel
  have hdotless : ∀ event ∈ history, ∀ tree ∈ event.tree?, tree.DotlessNames := by decide +kernel
  have hothers : ∀ event ∈ before, event.document? ≠ some ⟨0⟩ := by decide +kernel
  have hsome : (GrammarIndex.analyze "hime" (after before) ⟨0⟩ text tree).1.toOption.any
      (fun _ => true) = true := by decide +kernel
  obtain ⟨a, r, houtcome, -⟩ := exists_eq_ok_of_any hsome
  have hok := congrArg Prod.fst houtcome
  refine ⟨hwhole, hdotless, hothers, ⟨a, hok⟩, ?_,
    documentSymbols_as_written rfl hwhole hdotless hok hothers⟩
  have hlisted : infos = _ := (wellFormed_after history).documentSymbols_eq ⟨0⟩
  rw [hlisted]
  exact ((sortOn_perm _ _).map _).trans (.of_eq (by decide +kernel))

end Registry

end GrammarIndex
