import GrammarIndex.Analysis.Calls
import GrammarIndex.Proofs.Analysis.Reanalysis

/-!
# Abandoned passes

A pass that is abandoned half way has stated kinds, and has defined and referenced symbols
that other documents speak of too.  Whatever it was, and in whatever order it came, nothing
of the document is left afterwards: neither what the pass has written, nor what the document
had said before.  The names that the pass mentioned first keep their placeholders.

## Main definitions

* `Registry.Hears` — everything that a document can do to a registry.
* `Registry.FreeOf` — what an abandoned pass leaves of a registry.

## Main results

* `Registry.Hears.exists_mention` — the document forgotten, only placeholders remain.
* `Pass.hears_call`, `Pass.hears_calls` — a call speaks for the document of its pass.
* `freeOf_of_failure` — **a pass that fails leaves no trace of its document.**
-/

namespace GrammarIndex

namespace Registry

/-! ### What placeholders leave alone -/

/-- A symbol that is there stays as it is when names are mentioned. -/
theorem symbol?_mention_of_lt {r : Registry} {i : SymbolId} (hi : i.index < r.size)
    (names : List String) : (r.mention names).symbol? i = r.symbol? i := by
  induction names generalizing r with
  | nil => rfl
  | cons name names ih =>
    have hsymbol : (r.resolve name).2.symbol? i = r.symbol? i := by
      rw [symbol?_resolve, if_neg]
      rintro ⟨-, rfl⟩
      exact Nat.lt_irrefl _ hi
    have hi' : i.index < (r.resolve name).2.size :=
      symbol?_isSome_iff.mp (by rw [hsymbol]; exact symbol?_isSome_iff.mpr hi)
    rw [mention_cons, ih hi', hsymbol]

/-- A symbol that was not there is a placeholder. -/
theorem eq_placeholder_of_symbol?_mention {r : Registry} {i : SymbolId} {s : Symbol}
    {names : List String} (hs : (r.mention names).symbol? i = some s)
    (hnew : r.symbol? i = none) : s = .placeholder i s.qualifiedName := by
  induction names generalizing r with
  | nil => exact absurd (hnew.symm.trans hs) (by simp)
  | cons name names ih =>
    rw [mention_cons] at hs
    have hsymbol := symbol?_resolve r name i
    split at hsymbol
    · -- the placeholder of this very name: later ones leave it alone
      have hi : i.index < (r.resolve name).2.size := symbol?_isSome_iff.mp (by rw [hsymbol]; rfl)
      rw [symbol?_mention_of_lt hi, hsymbol] at hs
      rw [← Option.some.inj hs]
      rfl
    · exact ih hs (hsymbol.trans hnew)

@[simp] theorem documents_mention (r : Registry) (names : List String) :
    (r.mention names).documents = r.documents := by
  induction names generalizing r with
  | nil => rfl
  | cons name names ih => rw [mention_cons, ih, documents_resolve]

/-! ### Registries free of a document -/

/-- What an abandoned pass leaves of the registry `r`: everything but the document `d`, and
placeholders in addition. -/
structure FreeOf (r : Registry) (d : DocumentId) (r' : Registry) : Prop where
  /-- Every symbol is what forgetting the document makes of it. -/
  symbol?_eq : ∀ {i : SymbolId}, i.index < r.size → r'.symbol? i = (r.forget d).symbol? i
  /-- It has lost what the document has said, and has kept every other entry in its place. -/
  forgotten : ∀ {i : SymbolId} {s : Symbol}, r.symbol? i = some s →
    r'.symbol? i = some (s.forget d)
  /-- A symbol that was not there is a placeholder, of which nobody says anything. -/
  created : ∀ {i : SymbolId} {s : Symbol}, r.size ≤ i.index → r'.symbol? i = some s →
    s = .placeholder i s.qualifiedName
  /-- The index by document has lost the document, and nothing else. -/
  documents_eq : r'.documents = r.documents.erase d

theorem WellFormed.freeOf_mention {r : Registry} (h : r.WellFormed) (d : DocumentId)
    (names : List String) : r.FreeOf d ((r.forget d).mention names) where
  symbol?_eq := fun hi => symbol?_mention_of_lt (by rwa [size_forget]) names
  forgotten := by
    intro i s hs
    have hi : i.index < (r.forget d).size := by
      rw [size_forget]
      exact symbol?_isSome_iff.mp (by rw [hs]; rfl)
    rw [symbol?_mention_of_lt hi, h.symbol?_forget, hs, Option.map_some]
  created := by
    intro i s hi hs
    refine eq_placeholder_of_symbol?_mention hs (symbol?_eq_none_iff.mpr ?_)
    rwa [size_forget]
  documents_eq := documents_mention (r.forget d) names

end Registry

/-! ### Documents that speak -/

namespace Registry

/-- Everything that a document can do to a registry: it mentions names, and says something
about symbols, in any order. -/
inductive Hears (d : DocumentId) (r : Registry) : Registry → Prop
  /-- It does nothing. -/
  | nothing : Hears d r r
  /-- It mentions a name. -/
  | resolve {r' : Registry} (h : Hears d r r') (name : String) : Hears d r (r'.resolve name).2
  /-- It says something about a symbol. -/
  | write {r' : Registry} (h : Hears d r r') (i : SymbolId) {change : Symbol → Symbol}
    (speech : Symbol.IsSpeech d change) : Hears d r (r'.write d i change)

namespace Hears

variable {d : DocumentId} {r r' r'' : Registry}

theorem trans (h : Hears d r r') (h' : Hears d r' r'') : Hears d r r'' := by
  induction h' with
  | nothing => exact h
  | resolve _ name ih => exact ih.resolve name
  | write _ i speech ih => exact ih.write i speech

theorem wellFormed (h : Hears d r r') (hr : r.WellFormed) : r'.WellFormed := by
  induction h with
  | nothing => exact hr
  | resolve _ name ih => exact ih.resolve name
  | write _ i speech ih => exact ih.write speech i

/-- **The document forgotten, only placeholders remain.** -/
theorem exists_mention (h : Hears d r r') (hr : r.WellFormed) :
    ∃ names, r'.forget d = (r.forget d).mention names := by
  induction h with
  | nothing => exact ⟨[], rfl⟩
  | resolve _ name ih =>
    obtain ⟨names, hnames⟩ := ih
    exact ⟨names ++ [name], by rw [forget_resolve, hnames, mention_append]; rfl⟩
  | write h i speech ih =>
    obtain ⟨names, hnames⟩ := ih
    exact ⟨names, by rw [(h.wellFormed hr).forget_write speech, hnames]⟩

/-- What a document states where it uses a symbol may be refused. -/
theorem setKindIfUnset (h : Hears d r r') (i : SymbolId) (kind : Kind)
    (parent : Option SymbolId) : Hears d r (r'.setKindIfUnset d i kind parent).2 := by
  unfold Registry.setKindIfUnset
  split
  · exact h.write i (Symbol.isSpeech_state d ⟨kind, parent⟩)
  · exact h

end Hears

end Registry

namespace Pass

/-- A call changes neither the document of a pass nor its lines. -/
theorem document_call (p : Pass) (c : Call) : (p.call c).document = p.document := by
  cases c with
  | define name kind parent span =>
    simp only [call, defineAt]
    cases p.rangeOf span <;> rfl
  | reference i span =>
    simp only [call, referenceAt]
    cases p.rangeOf span <;> rfl
  | _ => rfl

/-- **A call speaks for the document of its pass**, whatever it asks for. -/
theorem hears_call (p : Pass) (c : Call) :
    Registry.Hears p.document p.registry (p.call c).registry := by
  have hnamed : ∀ name, Registry.Hears p.document p.registry (p.registry.resolve name).2 :=
    fun name => .resolve .nothing name
  -- whatever is called, a symbol is mentioned first and then written in the document's name
  cases c with
  | beginGrammar => exact .nothing
  | resolve name => exact hnamed name
  | declare name kind parent =>
    exact (hnamed name).write _ (Symbol.isSpeech_state p.document ⟨kind, parent⟩)
  | declareIfUnset name kind parent => exact (hnamed name).setKindIfUnset _ kind parent
  | define name kind parent span =>
    simp only [call, defineAt]
    cases p.rangeOf span with
    | error fault => exact .nothing
    | ok range =>
      exact ((hnamed name).write _ (Symbol.isSpeech_state p.document ⟨kind, parent⟩)).write _
        (Symbol.isSpeech_addDefinition p.document range)
  | reference i span =>
    simp only [call, referenceAt]
    cases p.rangeOf span with
    | error fault => exact .nothing
    | ok range => exact .write .nothing i (Symbol.isSpeech_addReference p.document range)

/-- So do several calls. -/
theorem hears_calls (p : Pass) (cs : List Call) :
    (p.calls cs).document = p.document ∧
      Registry.Hears p.document p.registry (p.calls cs).registry := by
  induction cs generalizing p with
  | nil => exact ⟨rfl, .nothing⟩
  | cons c cs ih =>
    obtain ⟨hdocument, hhears⟩ := ih (p.call c)
    rw [document_call] at hdocument hhears
    exact ⟨hdocument, (hears_call p c).trans hhears⟩

end Pass

/-! ### Failures -/

/-- Calls on a fresh pass that is then abandoned. -/
theorem freeOf_abandon_calls {r : Registry} (h : r.WellFormed) (source : String)
    (d : DocumentId) (text : String) (calls : List Pass.Call) :
    r.FreeOf d ((Pass.start r d text source).calls calls).abandon := by
  obtain ⟨hdocument, hhears⟩ := Pass.hears_calls (Pass.start r d text source) calls
  obtain ⟨names, hnames⟩ := hhears.exists_mention h
  rw [Pass.abandon, hdocument, hnames]
  exact h.freeOf_mention d names

/-- An analysis that finds a fault has forgotten its document. -/
theorem forget_analyze_of_error {r r' : Registry} {source : String} {d : DocumentId}
    {text : String} {tree : Tree} {fault : Fault}
    (herror : analyze source r d text tree = (.error fault, r')) : r'.forget d = r' := by
  have hreached := Pass.reached_walk (analysisStart source r d text) tree.occurrences
  rw [analyze_eq] at herror
  cases hwalk : (analysisStart source r d text).walk tree.occurrences with
  | ok p =>
    rw [hwalk] at herror
    exact absurd (congrArg Prod.fst herror) (by simp)
  | error stopped =>
    rw [hwalk] at herror hreached
    have hdocument : stopped.reached.document = d := by
      rw [show stopped.reached = _ from hreached, Pass.document_play]
      rfl
    have hr' : stopped.reached.abandon = r' := congrArg Prod.snd herror
    rw [← hr', Pass.abandon, hdocument, Registry.forget_forget]

/-- **A pass that fails leaves no trace of its document.**  After any history, take any calls
on a fresh pass over a document that is then abandoned, or an analysis of the document that
finds a fault.  Every symbol that was there is what forgetting the document makes of it; every
other symbol is a placeholder; and the index by document has lost the document and nothing
else. -/
theorem freeOf_of_failure (history : List Registry.Event) (source : String) (d : DocumentId)
    (text : String) :
    let r := Registry.after history
    (∀ calls : List Pass.Call, r.FreeOf d ((Pass.start r d text source).calls calls).abandon) ∧
      ∀ (tree : Tree) (fault : Fault) (r' : Registry),
        analyze source r d text tree = (.error fault, r') → r.FreeOf d r' := by
  intro r
  have h : r.WellFormed := Registry.wellFormed_after history
  refine ⟨freeOf_abandon_calls h source d text, ?_⟩
  intro tree fault r' herror
  have hforget := h.forget_analyze source d text tree
  rw [herror, forget_analyze_of_error herror] at hforget
  rw [hforget]
  exact h.freeOf_mention d _

/-- Two documents speak of `B`: one takes it for a terminal and references it, the other
defines it as a grammar. -/
def spokenOfByTwo : List Registry.Event :=
  [.operation (.resolve "B"), .operation (.setKind ⟨0⟩ ⟨0⟩ .terminal none),
    .operation (.addReference ⟨0⟩ ⟨0⟩ ⟨⟨0, 2⟩, ⟨0, 3⟩⟩),
    .operation (.setKind ⟨1⟩ ⟨0⟩ .grammar none),
    .operation (.addDefinition ⟨1⟩ ⟨0⟩ ⟨⟨0, 0⟩, ⟨0, 1⟩⟩)]

/-- The first document calls for symbols old and new, one of them by a handle that was never
given out; and an analysis of it finds a span after the text, when it has already referenced
`B` and defined a grammar and a terminal. -/
theorem freeOf_of_failure_spokenOfByTwo :
    let r := Registry.after spokenOfByTwo
    let calls : List Pass.Call :=
      [.reference ⟨0⟩ ⟨2, 3⟩, .beginGrammar, .define "B" .grammar (some ⟨9⟩) ⟨0, 1⟩,
        .reference ⟨7⟩ ⟨0, 1⟩, .declareIfUnset "B" .action none, .define "C" .context none ⟨0, 9⟩]
    let tree : Tree := ⟨[⟨⟨"A", ⟨0, 1⟩⟩, [⟨"B", ⟨2, 3⟩⟩], [],
      [.terminal ⟨"T", ⟨4, 5⟩⟩ (.reference ⟨"X", ⟨6, 9⟩⟩)], []⟩]⟩
    r.FreeOf ⟨0⟩ ((Pass.start r ⟨0⟩ "A:B{T}" "hime").calls calls).abandon ∧
      ∃ fault r', analyze "hime" r ⟨0⟩ "A:B{T}" tree = (.error fault, r') ∧ r.FreeOf ⟨0⟩ r' := by
  intro r calls tree
  obtain ⟨habandoned, hfailed⟩ := freeOf_of_failure spokenOfByTwo "hime" ⟨0⟩ "A:B{T}"
  refine ⟨habandoned calls, ?_⟩
  have hnone : (analyze "hime" r ⟨0⟩ "A:B{T}" tree).1.toOption = none := by decide +kernel
  cases houtcome : analyze "hime" r ⟨0⟩ "A:B{T}" tree with
  | mk answer r' =>
    rw [houtcome] at hnone
    cases answer with
    | ok a => exact absurd hnone (by simp [Except.toOption])
    | error fault => exact ⟨fault, r', rfl, hfailed tree fault r' houtcome⟩

end GrammarIndex
