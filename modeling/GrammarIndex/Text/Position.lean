/-!
# Positions and ranges in a document

An editor addresses a document by line and column, both counted from zero; a
column counts the bytes of the UTF-8 form of the line before it.  Positions are
ordered as they come in the text, and ranges by their start and then their end.

## Main definitions

* `Position`, `Range` — a place in a document and a stretch between two places.
* `Range.Contains` — the position lies in the range, both ends included.
* `Range.extent` — a rough size, by which the innermost of several ranges is
  picked.

## Main results

* `Position.le_trans`, `Position.le_total`, `Position.le_antisymm` — positions
  are linearly ordered, and so are ranges.
-/

namespace GrammarIndex

/-- Positions and offsets are words of 32 bits: they stay below this bound. -/
def wordBound : Nat := 4294967296

/-! ### Positions -/

/-- A line and a column of a document, both counted from zero. -/
structure Position where
  /-- The number of line breaks before the position. -/
  line : Nat
  /-- The number of bytes between the start of the line and the position. -/
  col : Nat
  deriving DecidableEq, Repr, Inhabited

namespace Position

/-- Positions are ordered by line, and within a line by column. -/
instance : LE Position where
  le a b := a.line < b.line ∨ a.line = b.line ∧ a.col ≤ b.col

/-- The strict order that belongs to `≤`. -/
instance : LT Position where
  lt a b := a.line < b.line ∨ a.line = b.line ∧ a.col < b.col

instance : DecidableLE Position := fun a b =>
  inferInstanceAs (Decidable (a.line < b.line ∨ a.line = b.line ∧ a.col ≤ b.col))

instance (a b : Position) : Decidable (a < b) :=
  inferInstanceAs (Decidable (a.line < b.line ∨ a.line = b.line ∧ a.col < b.col))

/-- The later of two positions. -/
instance : Max Position where
  max a b := if a ≤ b then b else a

theorem le_def {a b : Position} :
    a ≤ b ↔ a.line < b.line ∨ a.line = b.line ∧ a.col ≤ b.col := Iff.rfl

theorem lt_def {a b : Position} :
    a < b ↔ a.line < b.line ∨ a.line = b.line ∧ a.col < b.col := Iff.rfl

protected theorem le_refl (a : Position) : a ≤ a := by
  simp [le_def]

protected theorem le_trans {a b c : Position} (hab : a ≤ b) (hbc : b ≤ c) : a ≤ c := by
  rw [le_def] at *; omega

protected theorem le_total (a b : Position) : a ≤ b ∨ b ≤ a := by
  rw [le_def, le_def]; omega

protected theorem le_antisymm {a b : Position} (hab : a ≤ b) (hba : b ≤ a) : a = b := by
  obtain ⟨al, ac⟩ := a
  obtain ⟨bl, bc⟩ := b
  simp only [le_def] at hab hba
  simp only [mk.injEq]
  omega

protected theorem lt_iff_not_le {a b : Position} : a < b ↔ ¬b ≤ a := by
  rw [le_def, lt_def]; omega

/-- A position as people read it: line and column counted from one, as words. -/
def display (p : Position) : String :=
  s!"{(p.line + 1) % wordBound}:{(p.col + 1) % wordBound}"

end Position

/-! ### Ranges -/

/-- A stretch of a document.  Nothing asks the end to come after the start. -/
structure Range where
  /-- The position at which the range starts. -/
  start : Position
  /-- The position right after the last character of the range. -/
  stop : Position
  deriving DecidableEq, Repr, Inhabited

namespace Range

/-- The position lies in the range.  The end counts too, so that a cursor right
after a name is still on it. -/
def Contains (r : Range) (p : Position) : Prop := r.start ≤ p ∧ p ≤ r.stop

instance (r : Range) (p : Position) : Decidable (r.Contains p) :=
  inferInstanceAs (Decidable (r.start ≤ p ∧ p ≤ r.stop))

/-- Ranges are ordered by their start, and then by their end. -/
instance : LE Range where
  le a b := a.start < b.start ∨ a.start = b.start ∧ a.stop ≤ b.stop

/-- The strict order that belongs to `≤`. -/
instance : LT Range where
  lt a b := a.start < b.start ∨ a.start = b.start ∧ a.stop < b.stop

instance : DecidableLE Range := fun a b =>
  inferInstanceAs (Decidable (a.start < b.start ∨ a.start = b.start ∧ a.stop ≤ b.stop))

instance (a b : Range) : Decidable (a < b) :=
  inferInstanceAs (Decidable (a.start < b.start ∨ a.start = b.start ∧ a.stop < b.stop))

theorem le_def {a b : Range} :
    a ≤ b ↔ a.start < b.start ∨ a.start = b.start ∧ a.stop ≤ b.stop := Iff.rfl

theorem lt_def {a b : Range} :
    a < b ↔ a.start < b.start ∨ a.start = b.start ∧ a.stop < b.stop := Iff.rfl

protected theorem le_trans {a b c : Range} (hab : a ≤ b) (hbc : b ≤ c) : a ≤ c := by
  obtain ⟨⟨_, _⟩, ⟨_, _⟩⟩ := a
  obtain ⟨⟨_, _⟩, ⟨_, _⟩⟩ := b
  obtain ⟨⟨_, _⟩, ⟨_, _⟩⟩ := c
  simp only [le_def, Position.lt_def, Position.le_def, Position.mk.injEq] at *
  omega

protected theorem le_total (a b : Range) : a ≤ b ∨ b ≤ a := by
  obtain ⟨⟨_, _⟩, ⟨_, _⟩⟩ := a
  obtain ⟨⟨_, _⟩, ⟨_, _⟩⟩ := b
  simp only [le_def, Position.lt_def, Position.le_def, Position.mk.injEq]
  omega

protected theorem le_antisymm {a b : Range} (hab : a ≤ b) (hba : b ≤ a) : a = b := by
  obtain ⟨⟨_, _⟩, ⟨_, _⟩⟩ := a
  obtain ⟨⟨_, _⟩, ⟨_, _⟩⟩ := b
  simp only [le_def, Position.lt_def, Position.le_def, Position.mk.injEq, mk.injEq] at *
  omega

/-- The range as people read it: both positions with a dash between them. -/
def display (r : Range) : String := s!"{r.start.display}-{r.stop.display}"

end Range

/-! ### Extents -/

/-- The rough size of a range: how many lines it spans, and then how far apart
the columns of its two ends are. -/
structure Extent where
  /-- How many lines further down the range ends. -/
  lines : Nat
  /-- The distance between the columns of the two ends. -/
  cols : Nat
  deriving DecidableEq, Repr

namespace Extent

/-- Extents are ordered by lines, and with equally many lines by columns. -/
instance : LE Extent where
  le a b := a.lines < b.lines ∨ a.lines = b.lines ∧ a.cols ≤ b.cols

instance : DecidableLE Extent := fun a b =>
  inferInstanceAs (Decidable (a.lines < b.lines ∨ a.lines = b.lines ∧ a.cols ≤ b.cols))

theorem le_def {a b : Extent} :
    a ≤ b ↔ a.lines < b.lines ∨ a.lines = b.lines ∧ a.cols ≤ b.cols := Iff.rfl

protected theorem le_refl (a : Extent) : a ≤ a := by
  simp [le_def]

protected theorem le_trans {a b c : Extent} (hab : a ≤ b) (hbc : b ≤ c) : a ≤ c := by
  rw [le_def] at *; omega

protected theorem le_total (a b : Extent) : a ≤ b ∨ b ≤ a := by
  rw [le_def, le_def]; omega

end Extent

/-- The extent of a range.  A range that ends on an earlier line spans no lines. -/
def Range.extent (r : Range) : Extent where
  lines := r.stop.line - r.start.line
  cols := max r.stop.col r.start.col - min r.stop.col r.start.col

end GrammarIndex
