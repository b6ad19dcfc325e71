import GrammarIndex.Proofs.Analysis.Handles
import GrammarIndex.Proofs.Query.Cursor
import GrammarIndex.Proofs.Workspace.Stored

/-!
# Pointing into documents

A stored analysis is always one of the stored text, and what it lists are ranges of tokens in that
text.  Where no two of them touch, whoever points at a token finds the token.

## Main definitions

* `Host.Current` — an analysis of the text that the host stores.
* `Host.UpToDate` — every analysis that the host stores is current.

## Main results

* `Host.upToDate_replay` — **stored analyses stay current** over every history of edits.
* `Host.symbolAt?_of_separate` — **the cursor finds the token it is on.**
-/

namespace GrammarIndex

namespace Host

/-! ### Stored analyses and stored texts -/

/-- The analysis is one of the text that the host stores for the document, and the document
holds grammars. -/
structure Current (h : Host) (d : DocumentId) (a : Analysis) : Prop where
  /-- The document holds grammars. -/
  handled : ∃ uri, h.documents.uri? d = some uri ∧ h.config.handles uri = true
  /-- The text was analysed, after whatever had happened to the registry before. -/
  analyzed : ∃ text, h.documents.text? d = some text ∧ ∃ (r : Registry) (parsed : _),
    r.WellFormed ∧ (analyzeParsed h.config.source r d text parsed).1 = .ok a

/-- Every analysis that the host stores is current. -/
def UpToDate (h : Host) : Prop := ∀ d a, h.analysis? d = some a → h.Current d a

theorem upToDate_start (config : Config) : (start config).UpToDate :=
  fun _ _ ha => absurd ha (by simp [start, analysis?, Table.get?, Table.empty])

/-- **Stored analyses stay current** over every history of edits. -/
theorem upToDate_replay {h : Host} {r : Registry} (hu : h.UpToDate) (hc : h.Coherent r)
    (edits : List Edit) : (h.replay r edits).1.UpToDate := by
  let tells (d : DocumentId) (text : String) (a : Analysis) : Prop :=
    ∃ (r : Registry) (parsed : _), r.WellFormed ∧
      (analyzeParsed h.config.source r d text parsed).1 = .ok a
  have hbacks : h.Backs tells := fun d a ha => ⟨(hu d a ha).handled, (hu d a ha).analyzed⟩
  have hnew : ∀ e ∈ edits, Establishes tells h.config.source e := by
    intro e _
    cases e with
    | set uri text parsed => exact fun r d a hr hmade => ⟨r, parsed, hr, hmade⟩
    | remove uri => trivial
  intro d a ha
  obtain ⟨handled, told⟩ := hbacks.replay hc hnew d a ha
  refine ⟨handled, ?_⟩
  rw [config_replay]
  exact told

end Host

/-! ### Tokens of stored analyses -/

/-- An analysis has recorded tokens of its text. -/
theorem exists_spannedBy {source text : String} {r : Registry} (hr : r.WellFormed) {d : DocumentId}
    {parsed : Except ParseError Tree} {a : Analysis}
    (h : (analyzeParsed source r d text parsed).1 = .ok a) : ∃ spans, a.SpannedBy text spans := by
  have hspan : ∀ hit ∈ a.hits, ∃ span, (LineIndex.ofText text).range? span = some hit.range := by
    intro hit hmem
    obtain ⟨-, -, o, -, ho⟩ :=
      hr.exists_token_of_analyzeParsed h (Analysis.mention_mem_of_mem_hits hmem)
    exact ⟨o.token.span, ho⟩
  unfold Analysis.SpannedBy
  generalize a.hits = hits at hspan
  induction hits with
  | nil => exact ⟨[], .nil⟩
  | cons hit hits ih =>
    obtain ⟨span, hfirst⟩ := hspan hit List.mem_cons_self
    obtain ⟨spans, hrest⟩ := ih fun hit' hmem => hspan hit' (List.mem_cons_of_mem _ hmem)
    exact ⟨span :: spans, .cons hfirst hrest⟩

namespace Host

/-- **The cursor finds the token it is on.**  After every history of edits, let the host store
an analysis of a document.  It also stores the text, and whatever the analysis lists stands at
the range of a token in it, whose span is unique.  Where at least one byte lies between any two
of these tokens, the symbol at every position in a token, its end included, is what the
analysis lists for the token; and at any two tokens of one symbol, the uses, the definitions
and the highlights are the same. -/
theorem symbolAt?_of_separate (config : Config) (edits : List Edit) {d : DocumentId} {a : Analysis}
    (ha : ((Host.start config).replay .empty edits).1.analysis? d = some a) :
    let after := (Host.start config).replay .empty edits
    ∃ text spans, after.1.documents.text? d = some text ∧
      (∀ spans', a.SpannedBy text spans' ↔ spans' = spans) ∧
      (spans.Pairwise Span.Separate →
        (∀ hit ∈ a.hits, ∀ p, hit.range.Contains p → after.2.symbolAt? d p = some hit) ∧
        ∀ hit ∈ a.hits, ∀ hit' ∈ a.hits, hit.symbol = hit'.symbol →
          ∀ p p', hit.range.Contains p → hit'.range.Contains p' →
            (∀ declarations,
              after.2.findReferences d p declarations = after.2.findReferences d p' declarations) ∧
            after.2.gotoDefinition d p = after.2.gotoDefinition d p' ∧
            after.2.highlights d p = after.2.highlights d p') := by
  intro after
  have hcoherent : after.1.Coherent after.2 := (Coherent.start config).replay edits
  have hreflects : after.2.Reflects d a := by
    have hlatest := hcoherent.reflects d
    rwa [latest, ha] at hlatest
  have hcurrent : after.1.Current d a :=
    upToDate_replay (upToDate_start config) (Coherent.start config) edits d a ha
  obtain ⟨text, htext, r, parsed, hr, hanalyze⟩ := hcurrent.analyzed
  obtain ⟨spans, hspans⟩ := exists_spannedBy hr hanalyze
  -- a hit has one span only, since two offsets of a text are two positions
  refine ⟨text, spans, htext, fun spans' => ⟨hspans.unique, fun heq => heq ▸ hspans⟩, ?_⟩
  intro hseparate
  have hfound : ∀ hit ∈ a.hits, ∀ p, hit.range.Contains p → after.2.symbolAt? d p = some hit := by
    intro hit hmem p hp
    -- two hits that hold one position are of spans that are not separate, and so they are one
    refine hreflects.symbolAt?_eq_some hcoherent.wellFormed hmem hp fun hit' hmem' hp' => ?_
    exact hspans.eq_of_contains hseparate hmem' hmem hp' hp
  refine ⟨hfound, ?_⟩
  intro hit hmem hit' hmem' hsymbol p p' hp hp'
  exact Registry.answers_eq_of_symbol_eq (hfound hit hmem p hp) (hfound hit' hmem' p' hp') hsymbol

/-- A grammar `G` on one line, and on the next a rule for `S` that mentions `S`. -/
def twoLines : Edit :=
  .set "a.gram" "G\nS=S" (.ok ⟨[⟨⟨"G", ⟨0, 1⟩⟩, [], [], [],
    [⟨⟨"S", ⟨2, 3⟩⟩, [], .name ⟨"S", ⟨4, 5⟩⟩⟩]⟩]⟩)

/-- The three tokens of the two lines do not touch. -/
theorem symbolAt?_of_separate_twoLines :
    let after := (Host.start .default).replay .empty [twoLines]
    ∃ a, after.1.analysis? ⟨0⟩ = some a ∧ a.hits.length = 3 ∧
      ∃ text spans, after.1.documents.text? ⟨0⟩ = some text ∧ a.SpannedBy text spans ∧
        spans.Pairwise Span.Separate ∧
        (∀ hit ∈ a.hits, ∀ p, hit.range.Contains p → after.2.symbolAt? ⟨0⟩ p = some hit) ∧
        ∀ hit ∈ a.hits, ∀ hit' ∈ a.hits, hit.symbol = hit'.symbol →
          ∀ p p', hit.range.Contains p → hit'.range.Contains p' →
            (∀ declarations, after.2.findReferences ⟨0⟩ p declarations =
              after.2.findReferences ⟨0⟩ p' declarations) ∧
            after.2.gotoDefinition ⟨0⟩ p = after.2.gotoDefinition ⟨0⟩ p' ∧
            after.2.highlights ⟨0⟩ p = after.2.highlights ⟨0⟩ p' := by
  intro after
  let a : Analysis := ⟨⟨0⟩, [⟨⟨0⟩, ⟨⟨0, 0⟩, ⟨0, 1⟩⟩⟩, ⟨⟨1⟩, ⟨⟨1, 0⟩, ⟨1, 1⟩⟩⟩],
    [⟨⟨1⟩, ⟨⟨1, 2⟩, ⟨1, 3⟩⟩⟩], []⟩
  have ha : after.1.analysis? ⟨0⟩ = some a := by decide +kernel
  have htext : after.1.documents.text? ⟨0⟩ = some "G\nS=S" := by decide +kernel
  obtain ⟨text, spans, hstored, hspans, hfound⟩ := symbolAt?_of_separate .default [twoLines] ha
  obtain rfl : "G\nS=S" = text := Option.some.inj (htext.symm.trans hstored)
  have htokens : a.SpannedBy "G\nS=S" [⟨0, 1⟩, ⟨2, 3⟩, ⟨4, 5⟩] :=
    .cons (by decide) (.cons (by decide) (.cons (by decide) .nil))
  have hspans' := (hspans _).mp htokens
  have hseparate : spans.Pairwise Span.Separate := by
    rw [← hspans']
    decide
  exact ⟨a, ha, rfl, _, spans, htext, (hspans spans).mpr rfl, hseparate, hfound hseparate⟩

end Host

end GrammarIndex
