import GrammarIndex.Proofs.Query.Hits
import GrammarIndex.Proofs.Text.Lines
import GrammarIndex.Query.Occurrences
import Mathlib.Data.List.Pairwise

/-!
# The token under the cursor

An editor asks for the symbol at a position, and the cursor right after a name is still on it.
So two names that touch can both be meant.  Where at least one byte lies between any two tokens
that were recorded, the position can be in one of them only, and it is the one that is found.

## Main definitions

* `Analysis.hits` — what an analysis lists, definitions and references alike.
* `Analysis.SpannedBy` — the spans of the tokens that were recorded.
* `Span.Separate` — at least one byte lies between two spans.

## Main results

* `Analysis.SpannedBy.eq_of_contains` — a position lies in one of separate tokens at most.
* `Registry.Reflects.symbolAt?_eq_some` — **what is found at a position is what the analysis
  lists there**, if it lists one thing only.
-/

namespace GrammarIndex

/-! ### Tokens that were recorded -/

/-- There is at least one byte between the two spans. -/
def Span.Separate (s t : Span) : Prop := s.stop < t.start ∨ t.stop < s.start

instance (s t : Span) : Decidable (s.Separate t) :=
  inferInstanceAs (Decidable (s.stop < t.start ∨ t.stop < s.start))

namespace Analysis

/-- What an analysis lists, as it is found at a position: the definitions, and then the
references. -/
def hits (a : Analysis) : List Hit :=
  a.definitions.map (fun m => ⟨m.symbol, m.range, true⟩) ++
    a.references.map fun m => ⟨m.symbol, m.range, false⟩

/-- A symbol has the ranges at which it is mentioned. -/
theorem mem_rangesOf {i : SymbolId} {range : Range} {ms : List Mention} :
    range ∈ rangesOf i ms ↔ ⟨i, range⟩ ∈ ms := by
  simp only [rangesOf, List.mem_map, List.mem_filter, decide_eq_true_eq]
  constructor
  · rintro ⟨m, ⟨hm, rfl⟩, rfl⟩
    exact hm
  · intro hm
    exact ⟨_, ⟨hm, rfl⟩, rfl⟩

@[simp] theorem definition_mem_hits {a : Analysis} {i : SymbolId} {range : Range} :
    ⟨i, range, true⟩ ∈ a.hits ↔ range ∈ a.definitionsOf i := by
  rw [definitionsOf, mem_rangesOf]
  simp only [hits, List.mem_append, List.mem_map]
  constructor
  · rintro (⟨m, hm, heq⟩ | ⟨m, hm, heq⟩) <;> cases heq
    exact hm
  · exact fun hm => .inl ⟨_, hm, rfl⟩

@[simp] theorem reference_mem_hits {a : Analysis} {i : SymbolId} {range : Range} :
    ⟨i, range, false⟩ ∈ a.hits ↔ range ∈ a.referencesOf i := by
  rw [referencesOf, mem_rangesOf]
  simp only [hits, List.mem_append, List.mem_map]
  constructor
  · rintro (⟨m, hm, heq⟩ | ⟨m, hm, heq⟩) <;> cases heq
    exact hm
  · exact fun hm => .inr ⟨_, hm, rfl⟩

/-- Whatever can be found at a position is a mention. -/
theorem mention_mem_of_mem_hits {a : Analysis} {hit : Hit} (h : hit ∈ a.hits) :
    (⟨hit.symbol, hit.range⟩ : Mention) ∈ a.definitions ++ a.references := by
  rcases List.mem_append.mp h with h | h <;> obtain ⟨m, hm, rfl⟩ := List.mem_map.mp h
  · exact List.mem_append_left _ hm
  · exact List.mem_append_right _ hm

theorem map_symbol_hits (a : Analysis) : a.hits.map (·.symbol) = a.symbols := by
  simp [hits, symbols, Function.comp_def]

/-- These are the spans of the tokens that the analysis of this text has recorded, definitions
and references in order.  No two spans have the same range, so that the ranges that were
recorded tell them. -/
def SpannedBy (a : Analysis) (text : String) (spans : List Span) : Prop :=
  List.Forall₂ (fun hit span => (LineIndex.ofText text).range? span = some hit.range) a.hits spans

namespace SpannedBy

variable {a : Analysis} {text : String} {spans : List Span}

/-- There is one list of spans at most. -/
theorem unique {spans' : List Span} (h : a.SpannedBy text spans) (h' : a.SpannedBy text spans') :
    spans' = spans := by
  unfold SpannedBy at h h'
  generalize a.hits = hits at h h'
  induction h generalizing spans' with
  | nil =>
    cases h'
    rfl
  | cons hspan _ ih =>
    cases h' with
    | cons hspan' hrest' => rw [LineIndex.range?_inj hspan' hspan, ih hrest']

/-- **A position lies in one of separate tokens at most.** -/
theorem eq_of_contains (h : a.SpannedBy text spans) (hseparate : spans.Pairwise Span.Separate)
    {p : Position} {hit hit' : Hit} (hmem : hit ∈ a.hits) (hmem' : hit' ∈ a.hits)
    (hp : hit.range.Contains p) (hp' : hit'.range.Contains p) : hit = hit' := by
  -- the ranges come from spans that lie apart, and so no two of them hold one position
  have hapart : a.hits.Pairwise fun hit hit' =>
      ¬ (hit.range.Contains p ∧ hit'.range.Contains p) := by
    unfold SpannedBy at h
    generalize a.hits = hits at h
    induction h with
    | nil => exact List.Pairwise.nil
    | @cons hit span hits spans hspan hrest ih =>
      obtain ⟨hfirst, hothers⟩ := List.pairwise_cons.mp hseparate
      refine List.pairwise_cons.mpr ⟨?_, ih hothers⟩
      intro hit' hmem' ⟨hp, hp'⟩
      obtain ⟨span', hmemspan, hspan'⟩ := exists_of_forall₂ hrest hmem'
      obtain ⟨-, hrange⟩ := LineIndex.range?_eq_some_iff.mp hspan
      obtain ⟨-, hrange'⟩ := LineIndex.range?_eq_some_iff.mp hspan'
      rw [← hrange] at hp
      rw [← hrange'] at hp'
      -- each token starts no later than the other one ends
      have hle : span.start ≤ span'.stop :=
        LineIndex.position_le_iff.mp (Position.le_trans hp.1 hp'.2)
      have hle' : span'.start ≤ span.stop :=
        LineIndex.position_le_iff.mp (Position.le_trans hp'.1 hp.2)
      rcases hfirst span' hmemspan with hlt | hlt <;> omega
  by_contra hne
  have hsymm : Std.Symm fun hit hit' : Hit =>
      ¬ (hit.range.Contains p ∧ hit'.range.Contains p) := ⟨fun _ _ hnot hboth => hnot hboth.symm⟩
  exact hapart.forall hmem hmem' hne ⟨hp, hp'⟩

end SpannedBy

end Analysis

/-! ### What is found -/

namespace Registry

variable {r : Registry} {d : DocumentId} {a : Analysis}

/-- What a symbol offers at a position is listed by the analysis. -/
theorem Reflects.mem_hits_of_firstAt (h : r.Reflects d a) {i : SymbolId} {s : Symbol}
    (hs : r.symbol? i = some s) {p : Position} {site : Site} (hfirst : s.FirstAt d p site) :
    ⟨i, site.range, site.isDefinition⟩ ∈ a.hits := by
  cases hfirst with
  | definition first =>
    have hrange := first.mem
    rw [h.definitionsIn_eq hs, List.mem_eraseDups] at hrange
    exact Analysis.definition_mem_hits.mpr hrange
  | reference _ first =>
    have hrange := first.mem
    rw [h.referencesIn_eq hs, List.mem_eraseDups] at hrange
    exact Analysis.reference_mem_hits.mpr hrange

/-- The ranges of a symbol in the document are those at which the analysis lists it. -/
theorem Reflects.mem_ranges_iff (h : r.Reflects d a) {i : SymbolId} {s : Symbol}
    (hs : r.symbol? i = some s) {range : Range} :
    range ∈ s.definitionsIn d ++ s.referencesIn d ↔ ⟨i, range⟩ ∈ a.definitions ++ a.references := by
  rw [h.definitionsIn_eq hs, h.referencesIn_eq hs, List.mem_append, List.mem_append,
    List.mem_eraseDups, List.mem_eraseDups]
  exact or_congr Analysis.mem_rangesOf Analysis.mem_rangesOf

/-- What the analysis lists is a range of its symbol in the document. -/
theorem Reflects.exists_of_mem_hits (h : r.Reflects d a) (hwf : r.WellFormed) {hit : Hit}
    (hmem : hit ∈ a.hits) :
    ∃ s, r.symbol? hit.symbol = some s ∧
      hit.range ∈ s.definitionsIn d ++ s.referencesIn d := by
  have hlisted : hit.symbol ∈ a.symbols := a.map_symbol_hits ▸ List.mem_map_of_mem hmem
  obtain ⟨s, hsymbols, hid⟩ := List.mem_map.mp ((h.mem_symbolsIn_iff _).mpr hlisted)
  have hs : r.symbol? hit.symbol = some s := hid ▸ hwf.symbol?_of_mem_symbolsIn hsymbols
  exact ⟨s, hs, (h.mem_ranges_iff hs).mpr (Analysis.mention_mem_of_mem_hits hmem)⟩

/-- **What is found at a position is what the analysis lists there**, if it lists one thing
only. -/
theorem Reflects.symbolAt?_eq_some (h : r.Reflects d a) (hwf : r.WellFormed) {p : Position}
    {hit : Hit} (hmem : hit ∈ a.hits) (hp : hit.range.Contains p)
    (honly : ∀ hit' ∈ a.hits, hit'.range.Contains p → hit' = hit) :
    r.symbolAt? d p = some hit := by
  obtain ⟨s, hs, hrange⟩ := h.exists_of_mem_hits hwf hmem
  obtain ⟨found, hfound⟩ := Option.isSome_iff_exists.mp
    (hwf.isSome_symbolAt?_iff.mpr ⟨hit.symbol, s, hit.range, hs, hrange, hp⟩)
  obtain ⟨s', hs', hfirst⟩ := (hwf.found_of_symbolAt? hfound).first
  rw [hfound, honly found (h.mem_hits_of_firstAt hs' hfirst) hfirst.mem.2]

/-- At two positions of one symbol, whoever asks gets the same answers. -/
theorem answers_eq_of_symbol_eq {p p' : Position} {hit hit' : Hit}
    (hp : r.symbolAt? d p = some hit) (hp' : r.symbolAt? d p' = some hit')
    (hsymbol : hit.symbol = hit'.symbol) :
    (∀ declarations, r.findReferences d p declarations = r.findReferences d p' declarations) ∧
      r.gotoDefinition d p = r.gotoDefinition d p' ∧ r.highlights d p = r.highlights d p' := by
  have hunder : r.symbolUnder? d p = r.symbolUnder? d p' := by
    rw [symbolUnder?, symbolUnder?, hp, hp', Option.bind_some, Option.bind_some, hsymbol]
  simp only [findReferences, gotoDefinition, highlights, hunder, implies_true, and_self]

end Registry

end GrammarIndex
