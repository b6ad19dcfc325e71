import GrammarIndex.Proofs.Analysis.Reanalysis
import GrammarIndex.Proofs.Sorting
import GrammarIndex.Proofs.Symbol.Places
import GrammarIndex.Query.Rename

/-!
# Queries about occurrences agree

Four queries answer where the symbol at a position occurs, and each collects its answer by a
route of its own: through all documents or through one, definitions and references in turn or
sorted together.  They say the same nevertheless, for any number of documents and also where the
ranges of a symbol overlap or a range is both a definition and a reference.

## Main definitions

* `Registry.OccurrencesAgree` — what the four queries owe one another at a position.

## Main results

* `Symbol.pairwise_highlightsIn` — highlights ascend, and a definition comes before a reference
  at the same range.
* `Registry.occurrencesAgree_after` — **the queries agree after every history.**
-/

namespace GrammarIndex

namespace Symbol

variable {s : Symbol} {d : DocumentId}

/-! ### One symbol -/

theorem pairwise_sorted {ls : List Location} (h : ls.Nodup) :
    (Location.sorted ls).Pairwise (· < ·) :=
  pairwise_lt_sortOn _ (by rwa [List.map_id'])

theorem mem_sortedDefinitions_iff (h : s.WellFormed) {l : Location} :
    l ∈ s.sortedDefinitions ↔ l.range ∈ s.definitionsIn l.document :=
  mem_sortOn.trans (mem_locations_iff h.definitions.keys_nodup)

theorem mem_sortedReferences_iff (h : s.WellFormed) {l : Location} :
    l ∈ s.sortedReferences ↔ l.range ∈ s.referencesIn l.document :=
  mem_sortOn.trans (mem_locations_iff h.references.keys_nodup)

/-- The ranges of a symbol in a document, as the highlights take them. -/
theorem mem_highlightsIn_iff {highlight : Highlight} :
    highlight ∈ s.highlightsIn d ↔
      match highlight.kind with
      | .write => highlight.range ∈ s.definitionsIn d
      | .read => highlight.range ∈ s.referencesIn d := by
  obtain ⟨range, kind⟩ := highlight
  cases kind <;> simp [highlightsIn]

/-- Highlights ascend.  Two of them have the same range only where the symbol is both defined
and referenced, and then the definition comes first. -/
theorem pairwise_highlightsIn (h : s.WellFormed) (d : DocumentId) :
    (s.highlightsIn d).Pairwise fun a b =>
      a.range < b.range ∨ a.range = b.range ∧ a.kind = .write ∧ b.kind = .read := by
  refine pairwise_sortOn_ties _ (List.pairwise_append.mpr ⟨?_, ?_, ?_⟩)
  · -- the ranges of the definitions are distinct
    exact List.pairwise_map.mpr ((h.definitions.nodup_getD d).imp fun hne heq => absurd heq hne)
  · exact List.pairwise_map.mpr ((h.references.nodup_getD d).imp fun hne heq => absurd heq hne)
  · simp

/-- A new name is written at the ranges that are highlighted. -/
theorem map_range_renameEdits (s : Symbol) (d : DocumentId) (text newName : String) :
    ((s.renameEdits d text newName).map (·.range)).Perm ((s.highlightsIn d).map (·.range)) := by
  refine .trans (.of_eq ?_) ((sortOn_perm _ _).map _).symm
  simp [renameEdits, Function.comp_def]

end Symbol

namespace Registry

variable {r : Registry} {d : DocumentId} {p : Position}

/-! ### The symbol at a position -/

/-- The four queries about the symbol at a position agree. -/
structure OccurrencesAgree (r : Registry) (d : DocumentId) (p : Position) : Prop where
  /-- If declarations are asked for, they come first, as one goes to them. -/
  declarations_first :
    r.findReferences d p true = r.gotoDefinition d p ++ r.findReferences d p false
  /-- The definitions strictly ascend, by document and then by range. -/
  definitions_ascend : (r.gotoDefinition d p).Pairwise (· < ·)
  /-- So do the references. -/
  references_ascend : (r.findReferences d p false).Pairwise (· < ·)
  /-- The highlights ascend by range.  Where two have the same range, the first is a definition
  and the second a reference. -/
  highlights_ascend : (r.highlights d p).Pairwise fun a b =>
    a.range < b.range ∨ a.range = b.range ∧ a.kind = .write ∧ b.kind = .read
  /-- What is highlighted as written are the definitions in the document. -/
  write_iff : ∀ range,
    ⟨range, .write⟩ ∈ r.highlights d p ↔ ⟨d, range⟩ ∈ r.gotoDefinition d p
  /-- What is highlighted as read are the references in the document. -/
  read_iff : ∀ range,
    ⟨range, .read⟩ ∈ r.highlights d p ↔ ⟨d, range⟩ ∈ r.findReferences d p false
  /-- Renaming writes at each highlighted range, and once for each highlight. -/
  edits_perm : ∀ text newName edits, r.rename d text p newName = .ok edits →
    (edits.map (·.range)).Perm ((r.highlights d p).map (·.range))

theorem symbolUnder?_wellFormed (h : r.WellFormed) {s : Symbol}
    (hs : r.symbolUnder? d p = some s) : s.WellFormed := by
  obtain ⟨hit, -, hsymbol⟩ := Option.bind_eq_some_iff.mp hs
  exact h.symbol hsymbol

/-- Renaming makes the edits of the symbol at the position, or none at all. -/
theorem exists_of_rename_eq_ok {text newName : String} {edits : List TextEdit}
    (h : r.rename d text p newName = .ok edits) :
    ∃ s, r.symbolUnder? d p = some s ∧ s.renameEdits d text newName = edits := by
  unfold rename at h
  split at h
  · exact absurd h (by simp)
  · next s hs =>
    split at h
    · exact absurd h (by simp)
    · split at h
      · exact absurd h (by simp)
      · exact ⟨s, hs, Except.ok.inj h⟩

theorem WellFormed.occurrencesAgree (h : r.WellFormed) (d : DocumentId) (p : Position) :
    r.OccurrencesAgree d p := by
  cases hs : r.symbolUnder? d p with
  -- where nothing is found, every list is empty
  | none => constructor <;> simp [findReferences, gotoDefinition, highlights, rename, hs]
  -- all four queries ask for the same symbol, and two of them list its places
  | some s =>
    have hsymbol := symbolUnder?_wellFormed h hs
    have hgoto : r.gotoDefinition d p = s.sortedDefinitions := by rw [gotoDefinition, hs]
    have hfind : r.findReferences d p false = s.sortedReferences := by
      rw [findReferences, hs]
      rfl
    have hhighlights : r.highlights d p = s.highlightsIn d := by rw [highlights, hs]
    exact {
      declarations_first := by
        rw [hgoto, hfind, findReferences, hs]
        rfl
      definitions_ascend := by
        rw [hgoto]
        exact Symbol.pairwise_sorted (Symbol.nodup_locations hsymbol.definitions)
      references_ascend := by
        rw [hfind]
        exact Symbol.pairwise_sorted (Symbol.nodup_locations hsymbol.references)
      highlights_ascend := by
        rw [hhighlights]
        exact Symbol.pairwise_highlightsIn hsymbol d
      write_iff := fun range => by
        rw [hhighlights, hgoto, Symbol.mem_highlightsIn_iff,
          Symbol.mem_sortedDefinitions_iff hsymbol]
      read_iff := fun range => by
        rw [hhighlights, hfind, Symbol.mem_highlightsIn_iff,
          Symbol.mem_sortedReferences_iff hsymbol]
      edits_perm := fun text newName edits hrename => by
        obtain ⟨s', hs', rfl⟩ := exists_of_rename_eq_ok hrename
        obtain rfl : s = s' := Option.some.inj (hs.symm.trans hs')
        rw [hhighlights]
        exact s.map_range_renameEdits d text newName }

/-- **All queries about occurrences agree**, in every document and at every position of it,
whatever happened to the registry. -/
theorem occurrencesAgree_after (history : List Event) (d : DocumentId) (p : Position) :
    (after history).OccurrencesAgree d p :=
  (wellFormed_after history).occurrencesAgree d p

end Registry

end GrammarIndex
