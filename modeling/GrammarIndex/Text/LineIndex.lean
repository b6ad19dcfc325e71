import GrammarIndex.Text.Position

/-!
# Lines of a text

A parser reports byte spans and an editor asks in lines and columns.  The line
index of a text converts between the two: it holds the byte offset at which each
line starts.  A text that ends in a line break has an empty last line.

## Main definitions

* `Span` — a stretch of a text, as byte offsets.
* `LineIndex.ofText` — the line index of a text.
* `LineIndex.position` — the position of a byte offset.
* `LineIndex.range?` — the range of a span that lies within the text.
* `LineIndex.offset?` — the byte offset of a position.
-/

namespace GrammarIndex

/-- A stretch of a text, from one byte offset up to another. -/
structure Span where
  /-- The offset of the first byte. -/
  start : Nat
  /-- The offset right after the last byte. -/
  stop : Nat
  deriving DecidableEq, Repr, Inhabited

/-- A span as people read it: both offsets with two dots between them. -/
def Span.display (s : Span) : String := s!"{s.start}..{s.stop}"

/-- The offsets right after the line breaks of a text whose first character is
at `offset`. -/
def lineStartsFrom (offset : Nat) : List Char → List Nat
  | [] => []
  | c :: cs =>
    if c = '\n' then (offset + c.utf8Size) :: lineStartsFrom (offset + c.utf8Size) cs
    else lineStartsFrom (offset + c.utf8Size) cs

/-- Where the lines of a text start, and how long the text is. -/
structure LineIndex where
  /-- The byte offset of the start of each line, in ascending order. -/
  starts : List Nat
  /-- The number of bytes of the text. -/
  length : Nat
  deriving DecidableEq, Repr

namespace LineIndex

/-- The line index of a text: its first line starts at zero, and each line break
starts another. -/
def ofText (text : String) : LineIndex where
  starts := 0 :: lineStartsFrom 0 text.toList
  length := text.utf8ByteSize

/-- How many lines the text has. -/
def lineCount (index : LineIndex) : Nat := index.starts.length

/-- The text has no characters. -/
def isEmpty (index : LineIndex) : Bool := index.length == 0

/-- The position of a byte offset: the last line that starts at or before it,
and the distance from there.  An offset past the end lies on the last line. -/
def position (index : LineIndex) (offset : Nat) : Position :=
  let before := index.starts.filter (· ≤ offset)
  ⟨before.length - 1, offset - before.getLastD 0⟩

/-- The range of a span, if the span ends within the text. -/
def range? (index : LineIndex) (span : Span) : Option Range :=
  if span.stop ≤ index.length then
    some ⟨index.position span.start, index.position span.stop⟩
  else none

/-- The byte offset of a position, if its line exists and the offset lies within
the text.  The column may run past the end of its line.  A sum that is no word
is not an offset. -/
def offset? (index : LineIndex) (p : Position) : Option Nat :=
  (index.starts[p.line]?).bind fun start =>
    let offset := start + p.col
    if offset < wordBound ∧ offset ≤ index.length then some offset else none

theorem range?_eq_some_iff {index : LineIndex} {span : Span} {r : Range} :
    index.range? span = some r ↔
      span.stop ≤ index.length ∧ ⟨index.position span.start, index.position span.stop⟩ = r := by
  simp [range?]

theorem range?_eq_none_iff {index : LineIndex} {span : Span} :
    index.range? span = none ↔ index.length < span.stop := by
  simp [range?]

end LineIndex

/-- The character that starts at a byte offset of a text, if one does. -/
def charAtOffset? : Nat → List Char → Option Char
  | _, [] => none
  | offset, c :: cs =>
    if offset = 0 then some c
    else if c.utf8Size ≤ offset then charAtOffset? (offset - c.utf8Size) cs
    else none

end GrammarIndex
