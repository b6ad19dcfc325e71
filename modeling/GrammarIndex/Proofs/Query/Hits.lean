import GrammarIndex.Proofs.Analysis.Reanalysis
import GrammarIndex.Proofs.Registry.Slice

/-!
# Which occurrence is found

To find what occurs at a position, the registry looks at the symbols that its index by document
lists, and at no others.  Each of them offers one range, and of the offers the one with the
least extent is taken.  That the index is exact makes this a search through all symbols, and
that symbols stand in the order of their handles makes the answer independent of the order in
which the index lists them.

## Main definitions

* `Range.NoLarger` — a range is no larger than another one, told by lines and columns.
* `Range.FirstIn` — a range is the first of a list at a position.
* `Symbol.FirstAt` — the range that a symbol offers at a position, told without the search.
* `Registry.Found` — what is to be found at a position, told without the index.
* `Registry.offers` — the hits that the search compares.

## Main results

* `Range.noLarger_iff` — to compare extents is to compare lines, and then distances of columns.
* `exists_append_of_minOn?` — the least element that is taken is the first of several.
* `Symbol.siteAt?_eq_some_iff` — what a symbol offers.
* `Registry.symbolAt?_iff_found` — **the search is sound and complete**: there is a hit where
  any symbol of the registry has a range, and it is the one to be found.
-/

namespace GrammarIndex

/-! ### The least of a list -/

instance : Std.IsLinearPreorder Extent where
  le_refl := Extent.le_refl
  le_trans _ _ _ := Extent.le_trans
  le_total := Extent.le_total

/-- The least element that is taken is the first of several: what comes before it is not as
small. -/
theorem exists_append_of_minOn? {α β : Type} [LE β] [DecidableLE β] [Std.IsLinearPreorder β]
    {f : α → β} {as : List α} {a : α} (h : as.minOn? f = some a) :
    ∃ before after, as = before ++ a :: after ∧ (∀ b ∈ before, ¬ f b ≤ f a) ∧
      ∀ b ∈ after, f a ≤ f b := by
  -- on the list: its head is the answer, or the answer for the rest is
  induction as generalizing a with
  | nil => exact absurd h (by simp)
  | cons x as ih =>
    rw [List.minOn?_cons] at h
    cases hleast : as.minOn? f with
    | none =>
      rw [hleast] at h
      have has : as = [] := by
        by_contra hne
        exact absurd (List.isSome_minOn?_iff (f := f).mpr hne) (by simp [hleast])
      obtain rfl : x = a := Option.some.inj h
      exact ⟨[], [], by rw [has]; rfl, by simp, by simp⟩
    | some m =>
      obtain ⟨before, after, has, hbefore, hafter⟩ := ih hleast
      rw [hleast, Option.elim_some, minOn] at h
      by_cases hx : f x ≤ f m
      · rw [if_pos hx] at h
        obtain rfl : x = a := Option.some.inj h
        refine ⟨[], as, rfl, by simp, fun b hb => Std.le_trans hx ?_⟩
        -- nothing in the rest is below its own least element
        rcases List.mem_append.mp (has ▸ hb) with hb | hb
        · exact (Std.le_total (a := f b) (b := f m)).resolve_left (hbefore b hb)
        · rcases List.mem_cons.mp hb with rfl | hb
          · exact Std.le_refl _
          · exact hafter b hb
      · rw [if_neg hx] at h
        obtain rfl : m = a := Option.some.inj h
        refine ⟨x :: before, after, by rw [has]; rfl, fun b hb => ?_, hafter⟩
        rcases List.mem_cons.mp hb with rfl | hb
        · exact hx
        · exact hbefore b hb

/-! ### Larger and smaller ranges -/

/-- A range is no larger than another one: it spans fewer lines, or as many lines and the columns
of its ends are no further apart.  A range that ends above its start spans no lines. -/
def Range.NoLarger (a b : Range) : Prop :=
  a.stop.line - a.start.line < b.stop.line - b.start.line ∨
    a.stop.line - a.start.line = b.stop.line - b.start.line ∧
      ((a.stop.col : Int) - a.start.col).natAbs ≤ ((b.stop.col : Int) - b.start.col).natAbs

theorem Range.cols_extent (range : Range) :
    range.extent.cols = ((range.stop.col : Int) - range.start.col).natAbs := by
  simp only [extent]
  omega

/-- **To compare extents is to compare lines**, and with equally many lines the distances of
columns. -/
theorem Range.noLarger_iff {a b : Range} : a.NoLarger b ↔ a.extent ≤ b.extent := by
  rw [NoLarger, Extent.le_def, cols_extent, cols_extent]
  rfl

/-! ### What a symbol offers -/

/-- The range contains the position, and none before it in the list does. -/
def Range.FirstIn (range : Range) (ranges : List Range) (p : Position) : Prop :=
  ∃ before after, ranges = before ++ range :: after ∧ range.Contains p ∧
    ∀ range' ∈ before, ¬ range'.Contains p

theorem Range.FirstIn.mem {range : Range} {ranges : List Range} {p : Position}
    (h : range.FirstIn ranges p) : range ∈ ranges := by
  obtain ⟨before, after, rfl, -⟩ := h
  exact List.mem_append_right _ List.mem_cons_self

theorem Range.FirstIn.contains {range : Range} {ranges : List Range} {p : Position}
    (h : range.FirstIn ranges p) : range.Contains p := by
  obtain ⟨-, -, -, hp, -⟩ := h
  exact hp

theorem Range.find?_contains_eq_some_iff {ranges : List Range} {p : Position} {range : Range} :
    (ranges.find? fun range' => range'.Contains p) = some range ↔ range.FirstIn ranges p := by
  rw [List.find?_eq_some_iff_append, FirstIn]
  constructor
  · rintro ⟨hp, before, after, hranges, hbefore⟩
    exact ⟨before, after, hranges, of_decide_eq_true hp, fun range' hrange' => by
      simpa using hbefore range' hrange'⟩
  · rintro ⟨before, after, hranges, hp, hbefore⟩
    exact ⟨decide_eq_true hp, before, after, hranges, fun range' hrange' => by
      simpa using hbefore range' hrange'⟩

namespace Symbol

variable {s : Symbol} {d : DocumentId} {p : Position}

/-- The range of the symbol that comes first at a position of a document: the oldest definition
there, or else the oldest reference. -/
inductive FirstAt (s : Symbol) (d : DocumentId) (p : Position) : Site → Prop
  /-- The symbol is defined at the position. -/
  | definition {range : Range} (first : range.FirstIn (s.definitionsIn d) p) :
    FirstAt s d p ⟨range, true⟩
  /-- The symbol is referenced there, and not defined. -/
  | reference {range : Range} (undefined : ∀ range' ∈ s.definitionsIn d, ¬ range'.Contains p)
    (first : range.FirstIn (s.referencesIn d) p) : FirstAt s d p ⟨range, false⟩

/-- A symbol offers the range that comes first. -/
theorem siteAt?_eq_some_iff {site : Site} : s.siteAt? d p = some site ↔ s.FirstAt d p site := by
  rw [siteAt?, Option.or_eq_some_iff, Option.map_eq_none_iff, Option.map_eq_some_iff,
    Option.map_eq_some_iff]
  constructor
  · rintro (⟨range, hfirst, rfl⟩ | ⟨hundefined, range, hfirst, rfl⟩)
    · exact .definition (Range.find?_contains_eq_some_iff.mp hfirst)
    · -- a reference is taken only where there is no definition
      refine .reference (fun range' hrange' => ?_) (Range.find?_contains_eq_some_iff.mp hfirst)
      simpa using List.find?_eq_none.mp hundefined range' hrange'
  · rintro (⟨hfirst⟩ | ⟨hundefined, hfirst⟩)
    · exact .inl ⟨_, Range.find?_contains_eq_some_iff.mpr hfirst, rfl⟩
    · refine .inr ⟨List.find?_eq_none.mpr fun range' hrange' => ?_, _,
        Range.find?_contains_eq_some_iff.mpr hfirst, rfl⟩
      simpa using hundefined range' hrange'

/-- One range comes first. -/
theorem FirstAt.unique {site site' : Site} (h : s.FirstAt d p site) (h' : s.FirstAt d p site') :
    site = site' :=
  Option.some.inj ((siteAt?_eq_some_iff.mpr h).symm.trans (siteAt?_eq_some_iff.mpr h'))

/-- One comes first if the symbol has a range at the position at all. -/
theorem exists_firstAt {range : Range}
    (hrange : range ∈ s.definitionsIn d ++ s.referencesIn d) (hp : range.Contains p) :
    ∃ site, s.FirstAt d p site := by
  have hsome : (s.siteAt? d p).isSome := by
    rw [siteAt?, Option.isSome_or, Option.isSome_map, Option.isSome_map, Bool.or_eq_true,
      List.find?_isSome, List.find?_isSome]
    exact (List.mem_append.mp hrange).imp (fun hmem => ⟨range, hmem, decide_eq_true hp⟩)
      fun hmem => ⟨range, hmem, decide_eq_true hp⟩
  obtain ⟨site, hsite⟩ := Option.isSome_iff_exists.mp hsome
  exact ⟨site, siteAt?_eq_some_iff.mp hsite⟩

/-- It is a range of the symbol, and lies at the position. -/
theorem FirstAt.mem {site : Site} (h : s.FirstAt d p site) :
    site.range ∈ s.definitionsIn d ++ s.referencesIn d ∧ site.range.Contains p := by
  cases h with
  | definition first => exact ⟨List.mem_append_left _ first.mem, first.contains⟩
  | reference _ first => exact ⟨List.mem_append_right _ first.mem, first.contains⟩

end Symbol

namespace Registry

variable {r : Registry} {d : DocumentId} {p : Position}

/-- What is to be found at a position of a document, whatever the index by document lists. -/
structure Found (r : Registry) (d : DocumentId) (p : Position) (hit : Hit) : Prop where
  /-- It is the range of its symbol that comes first there. -/
  first : ∃ s, r.symbol? hit.symbol = some s ∧ s.FirstAt d p ⟨hit.range, hit.isDefinition⟩
  /-- No symbol of the registry comes with a smaller range. -/
  least : ∀ {i : SymbolId} {s : Symbol} {site : Site}, r.symbol? i = some s →
    s.FirstAt d p site → hit.range.NoLarger site.range
  /-- Others that come with a range of the same size are younger. -/
  oldest : ∀ {i : SymbolId} {s : Symbol} {site : Site}, r.symbol? i = some s →
    s.FirstAt d p site → site.range.NoLarger hit.range → hit.symbol.index ≤ i.index

/-- There is one such hit at most. -/
theorem Found.unique {hit hit' : Hit} (h : r.Found d p hit) (h' : r.Found d p hit') :
    hit = hit' := by
  obtain ⟨s, hs, hfirst⟩ := h.first
  obtain ⟨s', hs', hfirst'⟩ := h'.first
  -- neither range is larger, and so neither symbol is younger
  have hle : hit.symbol.index ≤ hit'.symbol.index := h.oldest hs' hfirst' (h'.least hs hfirst)
  have hge : hit'.symbol.index ≤ hit.symbol.index := h'.oldest hs hfirst (h.least hs' hfirst')
  obtain ⟨⟨i⟩, range, isDefinition⟩ := hit
  obtain ⟨⟨i'⟩, range', isDefinition'⟩ := hit'
  obtain rfl : i = i' := Nat.le_antisymm hle hge
  obtain rfl : s = s' := Option.some.inj (hs.symm.trans hs')
  cases hfirst.unique hfirst'
  rfl

/-- The hits that the symbols of a document offer at a position, in the order of their
handles. -/
def offers (r : Registry) (d : DocumentId) (p : Position) : List Hit :=
  (r.symbolsIn d).filterMap fun s =>
    (s.siteAt? d p).map fun site => ⟨s.id, site.range, site.isDefinition⟩

theorem symbolAt?_eq_minOn? (r : Registry) (d : DocumentId) (p : Position) :
    r.symbolAt? d p = (r.offers d p).minOn? fun hit => hit.range.extent := rfl

/-- A hit is a symbol of the document. -/
theorem mem_symbolsIn_of_symbolAt? {hit : Hit} (h : r.symbolAt? d p = some hit) :
    hit.symbol ∈ (r.symbolsIn d).map (·.id) := by
  rw [symbolAt?_eq_minOn?] at h
  obtain ⟨s, hs, hsite⟩ := List.mem_filterMap.mp (List.minOn?_mem h)
  obtain ⟨site, -, rfl⟩ := Option.map_eq_some_iff.mp hsite
  exact List.mem_map_of_mem hs

/-- Every symbol of the registry offers the range that comes first, though only those that the
index by document lists are asked. -/
theorem WellFormed.mem_offers_iff (h : r.WellFormed) {hit : Hit} :
    hit ∈ r.offers d p ↔
      ∃ s, r.symbol? hit.symbol = some s ∧ s.FirstAt d p ⟨hit.range, hit.isDefinition⟩ := by
  rw [offers, List.mem_filterMap]
  constructor
  · rintro ⟨s, hs, hoffer⟩
    obtain ⟨site, hsite, rfl⟩ := Option.map_eq_some_iff.mp hoffer
    exact ⟨s, h.symbol?_of_mem_symbolsIn hs, Symbol.siteAt?_eq_some_iff.mp hsite⟩
  · rintro ⟨s, hs, hfirst⟩
    have hid : s.id = hit.symbol := h.id_eq hs
    -- the registry lists the symbol under the document it has a range in
    have hlisted : s.id ∈ r.idsIn d := by
      rw [hid]
      exact h.mem_idsIn_iff.mpr ⟨s, hs, Symbol.spokenOfBy_of_mem hfirst.mem.1⟩
    refine ⟨s, List.mem_filter.mpr ⟨List.mem_of_getElem? hs, decide_eq_true hlisted⟩, ?_⟩
    rw [Symbol.siteAt?_eq_some_iff.mpr hfirst, hid]
    rfl

theorem WellFormed.pairwise_offers (h : r.WellFormed) (d : DocumentId) (p : Position) :
    (r.offers d p).Pairwise fun hit hit' => hit.symbol.index < hit'.symbol.index := by
  refine List.Pairwise.filterMap _ (fun s t hlt hit hoffer hit' hoffer' => ?_)
    (h.pairwise_symbolsIn d)
  obtain ⟨site, -, rfl⟩ := Option.map_eq_some_iff.mp hoffer
  obtain ⟨site', -, rfl⟩ := Option.map_eq_some_iff.mp hoffer'
  exact hlt

/-- What the search takes is what is to be found. -/
theorem WellFormed.found_of_symbolAt? (h : r.WellFormed) {hit : Hit}
    (hhit : r.symbolAt? d p = some hit) : r.Found d p hit := by
  rw [symbolAt?_eq_minOn?] at hhit
  obtain ⟨before, after, hoffers, hbefore, hafter⟩ := exists_append_of_minOn? hhit
  -- the answer is cut out of the offers, which go by age
  have hordered := h.pairwise_offers d p
  rw [hoffers] at hordered
  obtain ⟨-, hordered, -⟩ := List.pairwise_append.mp hordered
  obtain ⟨hyounger, -⟩ := List.pairwise_cons.mp hordered
  -- any other offer is larger, or it is no smaller and that of a younger symbol
  have hothers : ∀ hit' ∈ r.offers d p, ¬ hit'.range.extent ≤ hit.range.extent ∨ hit' = hit ∨
      hit.range.extent ≤ hit'.range.extent ∧ hit.symbol.index < hit'.symbol.index := by
    intro hit' hoffer
    rw [hoffers, List.mem_append, List.mem_cons] at hoffer
    exact hoffer.imp (hbefore hit') (.imp_right fun hlater =>
      ⟨hafter hit' hlater, hyounger hit' hlater⟩)
  refine ⟨h.mem_offers_iff.mp (List.minOn?_mem hhit), fun {i s site} hs hfirst => ?_,
    fun {i s site} hs hfirst hsmaller => ?_⟩
  · -- the least of what is offered
    rw [Range.noLarger_iff]
    rcases hothers ⟨i, site.range, site.isDefinition⟩ (h.mem_offers_iff.mpr ⟨s, hs, hfirst⟩) with
      hlarger | rfl | ⟨hle, -⟩
    · exact (Extent.le_total _ _).resolve_right hlarger
    · exact Extent.le_refl _
    · exact hle
  · rcases hothers ⟨i, site.range, site.isDefinition⟩ (h.mem_offers_iff.mpr ⟨s, hs, hfirst⟩) with
      hlarger | rfl | ⟨-, hlt⟩
    · exact absurd (Range.noLarger_iff.mp hsmaller) hlarger
    · exact Nat.le_refl _
    · exact Nat.le_of_lt hlt

/-- The search finds something if any symbol has a range at the position. -/
theorem WellFormed.isSome_symbolAt?_iff (h : r.WellFormed) :
    (r.symbolAt? d p).isSome ↔ ∃ i s range, r.symbol? i = some s ∧
      range ∈ s.definitionsIn d ++ s.referencesIn d ∧ range.Contains p := by
  constructor
  · intro hsome
    obtain ⟨hit, hhit⟩ := Option.isSome_iff_exists.mp hsome
    obtain ⟨s, hs, hfirst⟩ := (h.found_of_symbolAt? hhit).first
    exact ⟨hit.symbol, s, hit.range, hs, hfirst.mem⟩
  · rintro ⟨i, s, range, hs, hrange, hp⟩
    obtain ⟨site, hfirst⟩ := Symbol.exists_firstAt hrange hp
    have hoffer : ⟨i, site.range, site.isDefinition⟩ ∈ r.offers d p :=
      h.mem_offers_iff.mpr ⟨s, hs, hfirst⟩
    rw [symbolAt?_eq_minOn?, List.isSome_minOn?_iff]
    exact List.ne_nil_of_mem hoffer

/-- The search finds what is to be found, and nothing else. -/
theorem WellFormed.symbolAt?_eq_some_iff (h : r.WellFormed) {hit : Hit} :
    r.symbolAt? d p = some hit ↔ r.Found d p hit := by
  refine ⟨h.found_of_symbolAt?, fun hfound => ?_⟩
  obtain ⟨s, hs, hfirst⟩ := hfound.first
  obtain ⟨hit', hhit'⟩ := Option.isSome_iff_exists.mp
    (h.isSome_symbolAt?_iff.mpr ⟨hit.symbol, s, hit.range, hs, hfirst.mem⟩)
  rw [hhit', (h.found_of_symbolAt? hhit').unique hfound]

/-- **The search at a position is sound and complete**: after every history there is a hit where
any symbol of the registry has a range, and it is the one to be found. -/
theorem symbolAt?_iff_found (history : List Event) (d : DocumentId) (p : Position) :
    (((after history).symbolAt? d p).isSome ↔
      ∃ i s range, (after history).symbol? i = some s ∧
        range ∈ s.definitionsIn d ++ s.referencesIn d ∧ range.Contains p) ∧
    ∀ hit, (after history).symbolAt? d p = some hit ↔ (after history).Found d p hit :=
  have h := wellFormed_after history
  ⟨h.isSome_symbolAt?_iff, fun _ => h.symbolAt?_eq_some_iff⟩

end Registry

end GrammarIndex
