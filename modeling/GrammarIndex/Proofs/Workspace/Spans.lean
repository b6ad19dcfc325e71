import GrammarIndex.Proofs.Analysis.Handles
import GrammarIndex.Proofs.Grammar.Tokens
import GrammarIndex.Proofs.Query.Cursor
import GrammarIndex.Proofs.Query.Edits
import GrammarIndex.Proofs.Query.Occurrences
import GrammarIndex.Proofs.Text.Literal
import GrammarIndex.Proofs.Workspace.Stored

/-!
# Spans of stored texts

A parser tells tokens by spans, and whatever the registry has of a document are the ranges of such
spans in the text that the host stores.  So an edit that renames a symbol falls on a stretch of
this very text, also where a text was refused in between or a document was closed.

## Main definitions

* `Span.Proper`, `Edit.HasProperSpans` — the spans that parsers make.
* `Span.LiesIn` — the span is a stretch of the text.
* `TextEdit.Replaces` — the edit puts a name, in quotes or without, in the place of a stretch.

## Main results

* `Host.exists_span` — **whatever the registry has of a document lies in the stored text.**
* `Host.rename_fits` — **edits that rename a symbol fit the stored text.**
-/

namespace GrammarIndex

/-! ### Spans -/

/-- The span does not end before it starts, and its offsets are words. -/
def Span.Proper (span : Span) : Prop := span.start ≤ span.stop ∧ span.stop < wordBound

instance (span : Span) : Decidable span.Proper :=
  inferInstanceAs (Decidable (span.start ≤ span.stop ∧ span.stop < wordBound))

/-- The span is a stretch of the text. -/
def Span.LiesIn (span : Span) (text : String) : Prop :=
  span.start ≤ span.stop ∧ span.stop ≤ text.utf8ByteSize

/-- A proper span that has a range is a stretch of the text, and can be read off its range. -/
theorem Span.Proper.liesIn {span : Span} {text : String} {range : Range} (h : span.Proper)
    (hrange : (LineIndex.ofText text).range? span = some range) :
    span.LiesIn text ∧ (LineIndex.ofText text).offset? range.start = some span.start ∧
      (LineIndex.ofText text).offset? range.stop = some span.stop := by
  obtain ⟨hordered, hword⟩ := h
  obtain ⟨hstop, rfl⟩ := LineIndex.range?_eq_some_iff.mp hrange
  have hlength : span.stop ≤ text.utf8ByteSize := hstop
  exact ⟨⟨hordered, hlength⟩, LineIndex.offset?_position (by omega) (by omega),
    LineIndex.offset?_position hword hlength⟩

/-- Where a parser has made a tree, all of its spans are proper. -/
def Edit.HasProperSpans : Edit → Prop
  | .set _ _ (.ok tree) => ∀ t ∈ tree.tokens, t.span.Proper
  | _ => True

/-- Whatever the analysis lists stands at the range of a proper span. -/
def Analysis.ProperlyPlaced (a : Analysis) (text : String) : Prop :=
  ∀ m ∈ a.definitions ++ a.references,
    ∃ span : Span, span.Proper ∧ (LineIndex.ofText text).range? span = some m.range

/-! ### Edits -/

/-- The edit puts the name in the place of the stretch.  Where the stretch opens with a quote, the
name has this quote on both sides. -/
structure TextEdit.Replaces (edit : TextEdit) (text : String) (span : Span) (newName : String) :
    Prop where
  /-- The edit has the range of the stretch. -/
  range : (LineIndex.ofText text).range? span = some edit.range
  /-- The stretch starts where the range does. -/
  start : (LineIndex.ofText text).offset? edit.range.start = some span.start
  /-- And it stops where the range does. -/
  stop : (LineIndex.ofText text).offset? edit.range.stop = some span.stop
  /-- The name stands between quotes where there is one. -/
  quoted : ∀ q, q = '"' ∨ q = '\'' → StandsAt text span.start q →
    edit.newText.toList = q :: (newName.toList ++ [q])
  /-- And without quotes where there is none. -/
  bare : (∀ q, q = '"' ∨ q = '\'' → ¬ StandsAt text span.start q) → edit.newText = newName

/-- An edit of a symbol replaces the stretch at its range. -/
theorem Symbol.replaces_of_mem_renameEdits {s : Symbol} {d : DocumentId} {text newName : String}
    {edit : TextEdit} (hmem : edit ∈ s.renameEdits d text newName) {span : Span}
    (hproper : span.Proper) (hrange : (LineIndex.ofText text).range? span = some edit.range) :
    edit.Replaces text span newName := by
  obtain ⟨-, hstart, hstop⟩ := hproper.liesIn hrange
  obtain ⟨-, hnewText⟩ := Symbol.mem_renameEdits.mp hmem
  refine ⟨hrange, hstart, hstop, fun q hq hstands => ?_, fun hnone => ?_⟩
  · have hquote : quoteAt? text edit.range.start = some q :=
      (quoteAt?_eq_some_iff hstart).mpr ⟨hstands, isQuote_iff.mpr hq⟩
    rw [hnewText, hquote]
    exact toList_requote q newName
  · have hquote : quoteAt? text edit.range.start = none := by
      -- what stands where the range starts is no quotation mark
      refine Option.eq_none_iff_forall_ne_some.mpr fun q hq => ?_
      obtain ⟨hstands, hisQuote⟩ := (quoteAt?_eq_some_iff hstart).mp hq
      exact hnone q (isQuote_iff.mp hisQuote) hstands
    rw [hnewText, hquote]
    rfl

/-! ### Stored texts -/

namespace Host

/-- An analysis lists tokens of a tree, whose spans are proper. -/
theorem establishes_properlyPlaced {source : String} {e : Edit} (he : e.HasProperSpans) :
    Establishes (fun _ text a => a.ProperlyPlaced text) source e := by
  cases e with
  | set uri text parsed =>
    intro r d a hr hmade m hm
    obtain ⟨tree, rfl, o, ho, hrange⟩ := hr.exists_token_of_analyzeParsed hmade hm
    exact ⟨o.token.span, he _ (Tree.token_mem_tokens ho), hrange⟩
  | remove uri => trivial

/-- **Whatever the registry has of a document lies in the stored text**: it has the range of a
proper span. -/
theorem exists_span {h : Host} {r : Registry} (hc : h.Coherent r)
    (hb : h.Backs fun _ text a => a.ProperlyPlaced text) {d : DocumentId} {i : SymbolId}
    {s : Symbol} (hs : r.symbol? i = some s) {range : Range}
    (hrange : range ∈ s.definitionsIn d ++ s.referencesIn d) :
    ∃ text, h.documents.text? d = some text ∧
      ∃ span : Span, span.Proper ∧ (LineIndex.ofText text).range? span = some range := by
  have hlisted := ((hc.reflects d).mem_ranges_iff hs).mp hrange
  unfold latest at hlisted
  cases ha : h.analysis? d with
  | none =>
    -- of a document without an analysis the registry has nothing
    rw [ha] at hlisted
    exact absurd hlisted List.not_mem_nil
  | some a =>
    rw [ha] at hlisted
    obtain ⟨text, htext, hplaced⟩ := (hb d a ha).told
    exact ⟨text, htext, hplaced _ hlisted⟩

/-- **Edits that rename a symbol fit the stored text.**  After every history of edits in which the
parser made proper spans, each range that the registry has of a document is that of a stretch of
the text that the host stores.  If the symbol at a position can be renamed, every edit replaces
such a stretch: where the stretch opens with a quote, by the new name between two such quotes, and
elsewhere by the new name. -/
theorem rename_fits (config : Config) {edits : List Edit} (hedits : ∀ e ∈ edits, e.HasProperSpans)
    (d : DocumentId) :
    let after := (Host.start config).replay .empty edits
    (∀ i s, after.2.symbol? i = some s → ∀ range ∈ s.definitionsIn d ++ s.referencesIn d,
      ∃ text, after.1.documents.text? d = some text ∧
        ∃ span : Span, span.LiesIn text ∧ (LineIndex.ofText text).range? span = some range) ∧
    ∀ p newName changes, after.1.rename after.2 d p newName = .ok changes →
      ∀ change ∈ changes, ∃ text, after.1.documents.text? d = some text ∧
        ∃ span : Span, span.LiesIn text ∧ change.Replaces text span newName := by
  intro after
  have hc : after.1.Coherent after.2 := (Coherent.start config).replay edits
  have hb : after.1.Backs fun _ text a => a.ProperlyPlaced text :=
    (backs_start config).replay (Coherent.start config) fun e he =>
      establishes_properlyPlaced (hedits e he)
  constructor
  · intro i s hs range hrange
    obtain ⟨text, htext, span, hproper, hspan⟩ := exists_span hc hb hs hrange
    exact ⟨text, htext, span, (hproper.liesIn hspan).1, hspan⟩
  · intro p newName changes hrename change hchange
    obtain ⟨s, hunder, rfl⟩ := Registry.exists_of_rename_eq_ok hrename
    obtain ⟨hit, -, hs⟩ := Option.bind_eq_some_iff.mp hunder
    obtain ⟨text, htext, span, hproper, hspan⟩ :=
      exists_span hc hb hs (Symbol.mem_renameEdits.mp hchange).1
    rw [htext, Option.getD_some] at hchange
    exact ⟨text, htext, span, (hproper.liesIn hspan).1,
      Symbol.replaces_of_mem_renameEdits hchange hproper hspan⟩

/-- A grammar with a rule that mentions a virtual symbol in quotes. -/
def quotedTree : Tree :=
  ⟨[⟨⟨"G", ⟨0, 1⟩⟩, [], [], [],
    [⟨⟨"S", ⟨2, 3⟩⟩, [], .sequence [.virtual ⟨"\"v\"", ⟨7, 10⟩⟩]⟩]⟩]⟩

/-- A text that is too short for its tree, and later one that is long enough.  In between another
text is refused, and its document is closed in the end. -/
def reopened : List Edit :=
  [.set "a.gram" "G" (.ok quotedTree), .set "b.gram" "?" (.error (.unreadable "?")),
    .set "a.gram" "G\nS=é \"v\"" (.ok quotedTree), .remove "b.gram"]

/-- The edit falls on the virtual symbol after a character of two bytes, and keeps its quotes. -/
theorem rename_fits_reopened :
    (∀ e ∈ reopened, e.HasProperSpans) ∧
      let after := (Host.start .default).replay .empty reopened
      let change : TextEdit := ⟨⟨⟨1, 5⟩, ⟨1, 8⟩⟩, "\"w\""⟩
      after.1.rename after.2 ⟨0⟩ ⟨1, 6⟩ "w" = .ok [change] ∧
        after.1.documents.text? ⟨0⟩ = some "G\nS=é \"v\"" ∧
        Span.LiesIn ⟨7, 10⟩ "G\nS=é \"v\"" ∧ change.Replaces "G\nS=é \"v\"" ⟨7, 10⟩ "w" := by
  have hspans : ∀ t ∈ quotedTree.tokens, t.span.Proper := by decide +kernel
  have hedits : ∀ e ∈ reopened, e.HasProperSpans := by
    simp only [reopened, List.forall_mem_cons]
    exact ⟨hspans, trivial, hspans, trivial, fun _ he => absurd he List.not_mem_nil⟩
  refine ⟨hedits, ?_⟩
  intro after change
  have hrename : after.1.rename after.2 ⟨0⟩ ⟨1, 6⟩ "w" = .ok [change] := by decide +kernel
  have hstored : after.1.documents.text? ⟨0⟩ = some "G\nS=é \"v\"" := by decide +kernel
  obtain ⟨text, htext, span, hlies, hreplaces⟩ :=
    (rename_fits .default hedits ⟨0⟩).2 _ _ _ hrename change List.mem_cons_self
  obtain rfl : "G\nS=é \"v\"" = text := Option.some.inj (hstored.symm.trans htext)
  have hspan : (LineIndex.ofText "G\nS=é \"v\"").range? ⟨7, 10⟩ = some change.range := by
    decide +kernel
  obtain rfl := LineIndex.range?_inj hspan hreplaces.range
  exact ⟨hrename, hstored, hlies, hreplaces⟩

end Host

end GrammarIndex
