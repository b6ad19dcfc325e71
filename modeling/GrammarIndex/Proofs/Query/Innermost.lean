import GrammarIndex.Proofs.Query.Hits

/-!
# The innermost occurrence

Several ranges may lie at one position, one within the other, and the innermost is wanted.
The registry knows of no nesting.  Each symbol offers the range that comes first, be it inner
or outer, and the offers are compared by extent alone.  A range within another one has the
lesser extent, unless both stretch over the same lines and the inner one stops at a column
before that at which it starts: then its columns may be further apart.

## Main definitions

* `Range.Within` — a range lies within another one.
* `Range.Skewed` — the columns of the inner range do not tell that it is the smaller one.
* `Registry.Forward` — every range that was recorded starts before it stops.
* `Registry.FindsInnermost` — nothing lies within the range that is found.

## Main results

* `Range.extent_le_iff_of_within` — an inner range has the lesser extent, if it is not skewed.
* `Registry.range_eq_or_skewed_of_within` — **no offer lies within the range that is found**,
  skewed ones apart.
* `Registry.not_findsInnermost` — ranges that are not offered may lie within it.
-/

namespace GrammarIndex

/-! ### Inner ranges -/

namespace Range

variable {inner outer : Range}

/-- The range lies within the other one. -/
def Within (inner outer : Range) : Prop :=
  outer.start ≤ inner.start ∧ inner.stop ≤ outer.stop

instance (inner outer : Range) : Decidable (inner.Within outer) :=
  inferInstanceAs (Decidable (outer.start ≤ inner.start ∧ inner.stop ≤ outer.stop))

/-- Both ranges start on one line and stop on one line, the inner one stops at a column before
that at which it starts, and these columns are no closer than those of the outer one.  So it
stretches over several lines, and comparing columns takes it for the larger one. -/
def Skewed (inner outer : Range) : Prop :=
  inner.start.line = outer.start.line ∧ inner.stop.line = outer.stop.line ∧
    inner.stop.col < inner.start.col ∧ outer.extent.cols ≤ inner.extent.cols

/-- **An inner range has the lesser extent**, unless it is the outer one or skewed. -/
theorem extent_le_iff_of_within (hforward : inner.start ≤ inner.stop)
    (hwithin : inner.Within outer) :
    outer.extent ≤ inner.extent ↔ inner = outer ∨ inner.Skewed outer := by
  constructor
  · intro hle
    obtain ⟨⟨startLine, startCol⟩, ⟨stopLine, stopCol⟩⟩ := inner
    obtain ⟨⟨startLine', startCol'⟩, ⟨stopLine', stopCol'⟩⟩ := outer
    obtain ⟨hstart, hstop⟩ := hwithin
    simp only [Position.le_def] at hforward hstart hstop
    have hlines : startLine' ≤ startLine ∧ startLine ≤ stopLine ∧ stopLine ≤ stopLine' := by omega
    -- the outer range has no more lines than the inner one, and so they are on the same lines
    obtain ⟨rfl, rfl, hcols⟩ : startLine = startLine' ∧ stopLine = stopLine' ∧
        max stopCol' startCol' - min stopCol' startCol' ≤
          max stopCol startCol - min stopCol startCol := by
      simp only [extent, Extent.le_def] at hle
      omega
    by_cases hback : stopCol < startCol
    · -- the columns run backwards from one line to a later one
      exact .inr ⟨rfl, rfl, hback, hcols⟩
    · -- the columns are nested and run forwards, and so they are the same
      have hnested : startCol' ≤ startCol ∧ startCol ≤ stopCol ∧ stopCol ≤ stopCol' := by omega
      rw [Nat.max_eq_left (by omega), Nat.min_eq_right (by omega), Nat.max_eq_left (by omega),
        Nat.min_eq_right (by omega)] at hcols
      refine .inl ?_
      simp only [mk.injEq, Position.mk.injEq, true_and]
      omega
  · rintro (rfl | ⟨hstart, hstop, -, hcols⟩)
    · exact Extent.le_refl _
    · -- the distance of the columns grows while the range shrinks
      exact .inr ⟨by simp only [extent, hstart, hstop], hcols⟩

end Range

/-! ### What lies within the range that is found -/

namespace Registry

/-- **No offer lies within the range that is found**, after any history: the range that comes
first for a symbol at the position is not a part of it, except for one that is skewed. -/
theorem range_eq_or_skewed_of_within {history : List Event} {d : DocumentId} {p : Position}
    {hit : Hit} {i : SymbolId} {s : Symbol} {site : Site}
    (hhit : (after history).symbolAt? d p = some hit) (hs : (after history).symbol? i = some s)
    (hfirst : s.FirstAt d p site) (hwithin : site.range.Within hit.range) :
    site.range = hit.range ∨ site.range.Skewed hit.range := by
  have hfound := (wellFormed_after history).found_of_symbolAt? hhit
  obtain ⟨-, hstart, hstop⟩ := hfirst.mem
  have hforward : site.range.start ≤ site.range.stop := Position.le_trans hstart hstop
  have hle : hit.range.extent ≤ site.range.extent :=
    Range.noLarger_iff.mp (hfound.least hs hfirst)
  exact (Range.extent_le_iff_of_within hforward hwithin).mp hle

/-- A definition, and two other symbols that are referenced at one range within it. -/
def usedWithin : List Event :=
  [.operation (.resolve "G.X"), .operation (.resolve "G.Y"), .operation (.resolve "G.Z"),
    .operation (.addDefinition ⟨0⟩ ⟨0⟩ ⟨⟨0, 0⟩, ⟨2, 0⟩⟩),
    .operation (.addReference ⟨0⟩ ⟨2⟩ ⟨⟨1, 2⟩, ⟨1, 4⟩⟩),
    .operation (.addReference ⟨0⟩ ⟨1⟩ ⟨⟨1, 2⟩, ⟨1, 4⟩⟩)]

/-- The older of the two is found, and the other one stands at the same range. -/
theorem range_eq_or_skewed_of_within_usedWithin :
    ∃ hit s site, (after usedWithin).symbolAt? ⟨0⟩ ⟨1, 3⟩ = some hit ∧
      (after usedWithin).symbol? ⟨2⟩ = some s ∧ s.FirstAt ⟨0⟩ ⟨1, 3⟩ site ∧
      site.range.Within hit.range ∧ (site.range = hit.range ∨ site.range.Skewed hit.range) := by
  let hit : Hit := ⟨⟨1⟩, ⟨⟨1, 2⟩, ⟨1, 4⟩⟩, false⟩
  let site : Site := ⟨⟨⟨1, 2⟩, ⟨1, 4⟩⟩, false⟩
  let s : Symbol := ((after usedWithin).symbol? ⟨2⟩).getD (.placeholder ⟨2⟩ "G.Z")
  have hhit : (after usedWithin).symbolAt? ⟨0⟩ ⟨1, 3⟩ = some hit := by decide +kernel
  have hs : (after usedWithin).symbol? ⟨2⟩ = some s := by decide +kernel
  have hfirst : s.FirstAt ⟨0⟩ ⟨1, 3⟩ site := Symbol.siteAt?_eq_some_iff.mp (by decide +kernel)
  have hwithin : site.range.Within hit.range := by decide
  exact ⟨hit, s, site, hhit, hs, hfirst, hwithin,
    range_eq_or_skewed_of_within hhit hs hfirst hwithin⟩

/-- Every range that was recorded starts before it stops, or where it stops. -/
def Forward (r : Registry) : Prop :=
  ∀ s ∈ r.symbols, ∀ place ∈ s.definitionLocations ++ s.referenceLocations,
    place.range.start ≤ place.range.stop

instance (r : Registry) : Decidable r.Forward :=
  inferInstanceAs (Decidable (∀ s ∈ r.symbols,
    ∀ place ∈ s.definitionLocations ++ s.referenceLocations, place.range.start ≤ place.range.stop))

/-- Nothing that was recorded in the document lies at a position and within the range that is
found there. -/
def FindsInnermost (r : Registry) (d : DocumentId) : Prop :=
  ∀ (p : Position) (hit : Hit), r.symbolAt? d p = some hit →
    ∀ (i : SymbolId) (s : Symbol), r.symbol? i = some s →
      ∀ range ∈ s.definitionsIn d ++ s.referencesIn d,
        range.Contains p → range.Within hit.range → range = hit.range

/-- A symbol that is referenced within its own definition. -/
def usedInItself : List Event :=
  [.operation (.resolve "G.X"),
    .operation (.addDefinition ⟨0⟩ ⟨0⟩ ⟨⟨0, 0⟩, ⟨0, 9⟩⟩),
    .operation (.addReference ⟨0⟩ ⟨0⟩ ⟨⟨0, 2⟩, ⟨0, 4⟩⟩)]

/-- A symbol that is referenced twice at one position, the second time within a reference of
another symbol. -/
def usedTwice : List Event :=
  [.operation (.resolve "G.X"), .operation (.resolve "G.Y"),
    .operation (.addReference ⟨0⟩ ⟨0⟩ ⟨⟨0, 1⟩, ⟨0, 7⟩⟩),
    .operation (.addReference ⟨0⟩ ⟨1⟩ ⟨⟨0, 0⟩, ⟨0, 9⟩⟩),
    .operation (.addReference ⟨0⟩ ⟨1⟩ ⟨⟨0, 2⟩, ⟨0, 4⟩⟩)]

/-- Two references over the same two lines, one within the other. -/
def usedOverLines : List Event :=
  [.operation (.resolve "G.X"), .operation (.resolve "G.Y"),
    .operation (.addReference ⟨0⟩ ⟨0⟩ ⟨⟨0, 4⟩, ⟨1, 5⟩⟩),
    .operation (.addReference ⟨0⟩ ⟨1⟩ ⟨⟨0, 9⟩, ⟨1, 2⟩⟩)]

/-- The range that is found is not the innermost one where the symbol offers its definition,
where it offers an older reference, and where the inner range is skewed. -/
theorem not_findsInnermost :
    ((after usedInItself).Forward ∧ ¬ (after usedInItself).FindsInnermost ⟨0⟩) ∧
      ((after usedTwice).Forward ∧ ¬ (after usedTwice).FindsInnermost ⟨0⟩) ∧
      (after usedOverLines).Forward ∧ ¬ (after usedOverLines).FindsInnermost ⟨0⟩ := by
  refine ⟨⟨by decide +kernel, fun h => ?_⟩, ⟨by decide +kernel, fun h => ?_⟩,
    by decide +kernel, fun h => ?_⟩
  · have heq := h ⟨0, 3⟩ ⟨⟨0⟩, ⟨⟨0, 0⟩, ⟨0, 9⟩⟩, true⟩ (by decide +kernel) ⟨0⟩ _ rfl
      ⟨⟨0, 2⟩, ⟨0, 4⟩⟩ (by decide +kernel) (by decide) (by decide)
    exact absurd heq (by decide)
  · have heq := h ⟨0, 3⟩ ⟨⟨0⟩, ⟨⟨0, 1⟩, ⟨0, 7⟩⟩, false⟩ (by decide +kernel) ⟨1⟩ _ rfl
      ⟨⟨0, 2⟩, ⟨0, 4⟩⟩ (by decide +kernel) (by decide) (by decide)
    exact absurd heq (by decide)
  · have heq := h ⟨1, 0⟩ ⟨⟨0⟩, ⟨⟨0, 4⟩, ⟨1, 5⟩⟩, false⟩ (by decide +kernel) ⟨1⟩ _ rfl
      ⟨⟨0, 9⟩, ⟨1, 2⟩⟩ (by decide +kernel) (by decide) (by decide)
    exact absurd heq (by decide)

end Registry

end GrammarIndex
