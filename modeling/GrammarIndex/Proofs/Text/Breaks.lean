import GrammarIndex.Proofs.Text.Lines
import Mathlib.Data.List.Basic

/-!
# Lines among bytes

A line index is made character by character and counts bytes.  In the UTF-8 form of a text a
line break is one byte, and no other character has such a byte.  So the first line starts at
the first byte and every other one right after a break, the line of an offset is the number of
breaks among the bytes before it, and its column is the distance from the last of them.

## Main definitions

* `utf8Bytes`, `lineFeed` — the bytes of a text, and the one that is a line break.
* `breaksBefore` — the number of line breaks among the first bytes.
* `StartsLine` — where a line starts.
* `Unbroken` — no line break from one offset up to another.

## Main results

* `LineIndex.getElem?_starts_iff` — the index lists where the lines start.
* `LineIndex.line_position` — the line of an offset is the number of breaks before it.
* `LineIndex.position_measures` — **positions order and measure the text.**
* `LineIndex.offset?_inverts` — **positions convert back to offsets**, and to nothing where
  the text has no such position.
-/

namespace GrammarIndex

/-! ### Bytes -/

/-- The bytes of the UTF-8 form of a text. -/
def utf8Bytes (text : String) : List UInt8 := text.toByteArray.data.toList

/-- The byte of a line break. -/
def lineFeed : UInt8 := 10

/-- The number of line breaks among the first bytes of a text. -/
def breaksBefore (text : String) (offset : Nat) : Nat :=
  ((utf8Bytes text).take offset).count lineFeed

/-- The line starts at this byte: it comes first or right after a line break, and there are as
many line breaks before it as there are lines. -/
structure StartsLine (text : String) (line start : Nat) : Prop where
  /-- Nothing but a line break comes right before the line. -/
  first_or_after : start = 0 ∨ (utf8Bytes text)[start - 1]? = some lineFeed
  /-- Every line before this one ends in a line break. -/
  breaks : breaksBefore text start = line

/-- None of the bytes from one offset up to another is a line break. -/
def Unbroken (text : String) (start stop : Nat) : Prop :=
  ∀ k, start ≤ k → k < stop → (utf8Bytes text)[k]? ≠ some lineFeed

theorem utf8Bytes_eq_flatMap (text : String) :
    utf8Bytes text = text.toList.flatMap String.utf8EncodeChar := by
  rw [utf8Bytes, ← String.utf8Encode_toList, List.utf8Encode, List.data_toByteArray]

theorem length_utf8Bytes (text : String) : (utf8Bytes text).length = text.utf8ByteSize := rfl

/-- A byte of a character is its code point, or larger than every code point of one byte. -/
theorem toNat_of_mem_utf8EncodeChar {c : Char} {b : UInt8} (h : b ∈ String.utf8EncodeChar c) :
    b.toNat = c.toNat ∨ 128 ≤ b.toNat := by
  change b.toNat = c.val.toNat ∨ 128 ≤ b.toNat
  simp only [String.utf8EncodeChar] at h
  split at h
  · left
    rw [List.mem_singleton] at h
    rw [h, UInt8.toNat_ofNat', Nat.mod_eq_of_lt (by omega)]
  · right
    split at h
    · simp only [List.mem_cons, List.not_mem_nil, or_false] at h
      rcases h with rfl | rfl <;> rw [UInt8.toNat_ofNat'] <;> omega
    · split at h <;> simp only [List.mem_cons, List.not_mem_nil, or_false] at h
      · rcases h with rfl | rfl | rfl <;> rw [UInt8.toNat_ofNat'] <;> omega
      · rcases h with rfl | rfl | rfl | rfl <;> rw [UInt8.toNat_ofNat'] <;> omega

/-- No other character has the byte of a line break. -/
theorem lineFeed_notMem_utf8EncodeChar {c : Char} (h : c ≠ '\n') :
    lineFeed ∉ String.utf8EncodeChar c := by
  intro hmem
  rcases toNat_of_mem_utf8EncodeChar hmem with hcode | hlarge
  · exact h (Char.toNat_inj.mp hcode.symm)
  · exact absurd hlarge (by decide)

/-! ### Indices of a value in a list -/

section

variable {α : Type} [BEq α] [LawfulBEq α] {x : α}

/-- The indices of a value are told by how often it comes before them. -/
theorem getElem?_idxsOf_eq_some_iff {xs : List α} {s n i : Nat} :
    (xs.idxsOf x s)[n]? = some (s + i) ↔ xs[i]? = some x ∧ (xs.take i).count x = n := by
  -- by induction on the list; `s` is the place at which it begins in the whole one
  induction xs generalizing s n i with
  | nil => simp
  | cons y ys ih =>
    have hlater (m : Nat) : (ys.idxsOf x (s + 1))[m]? ≠ some s := by
      intro hm
      have hle := List.ge_of_mem_idxsOf s (List.mem_of_getElem? hm)
      omega
    rw [List.idxsOf_cons]
    cases i with
    | zero =>
      by_cases hy : y = x
      · cases n <;> simp [hy, hlater]
      · simp [hy, hlater]
    | succ i =>
      rw [show s + (i + 1) = s + 1 + i by omega, List.getElem?_cons_succ, List.take_succ_cons]
      by_cases hy : y = x
      · cases n with
        | zero => simp [hy]; omega
        | succ n => simp [hy, ih]
      · simp [hy, ih]

/-- A value has as many indices below a bound as it comes before the bound. -/
theorem countP_idxsOf (x : α) (xs : List α) (s n : Nat) :
    (xs.idxsOf x s).countP (· < s + n) = (xs.take n).count x := by
  induction xs generalizing s n with
  | nil => simp
  | cons y ys ih =>
    cases n with
    | zero =>
      rw [List.take_zero, List.count_nil, List.countP_eq_zero]
      intro m hm
      have hle := List.ge_of_mem_idxsOf m hm
      simpa using hle
    | succ n =>
      have hnext := ih (s + 1) n
      rw [show s + 1 + n = s + (n + 1) by omega] at hnext
      rw [List.idxsOf_cons, List.take_succ_cons, List.count_cons, ← hnext]
      by_cases hy : y = x <;> simp [hy]

end

/-! ### Line breaks -/

section

variable {text : String} {start stop : Nat}

theorem breaksBefore_le (h : start ≤ stop) : breaksBefore text start ≤ breaksBefore text stop :=
  ((List.take_prefix_take_left h).sublist).count_le lineFeed

/-- A line break is counted from the next byte on. -/
theorem breaksBefore_succ {k : Nat} (h : (utf8Bytes text)[k]? = some lineFeed) :
    breaksBefore text (k + 1) = breaksBefore text k + 1 := by
  rw [breaksBefore, List.take_add_one, h, List.count_append]
  rfl

/-- There are no more breaks before an offset than before an earlier one exactly if no byte
between them is a break. -/
theorem breaksBefore_eq_iff (h : start ≤ stop) :
    breaksBefore text start = breaksBefore text stop ↔ Unbroken text start stop := by
  constructor
  · intro heq k hstart hstop hbreak
    -- a break on the way is counted after and not before
    have hbefore : breaksBefore text start ≤ breaksBefore text k := breaksBefore_le hstart
    have hafter : breaksBefore text (k + 1) ≤ breaksBefore text stop := breaksBefore_le hstop
    rw [breaksBefore_succ hbreak] at hafter
    omega
  · -- no break on the way, and so nothing is counted
    intro hunbroken
    obtain ⟨n, rfl⟩ := Nat.exists_eq_add_of_le h
    have hnone : lineFeed ∉ ((utf8Bytes text).drop start).take n := by
      intro hmem
      obtain ⟨k, hk⟩ := List.mem_iff_getElem?.mp hmem
      rw [List.getElem?_take] at hk
      split at hk
      · next hkn =>
        rw [List.getElem?_drop] at hk
        exact hunbroken (start + k) (by omega) (by omega) hk
      · exact absurd hk (by simp)
    rw [breaksBefore, breaksBefore, List.take_add, List.count_append,
      List.count_eq_zero_of_not_mem hnone, Nat.add_zero]

end

/-- Line breaks stand where their bytes do. -/
theorem lineStartsFrom_eq_idxsOf (offset : Nat) (cs : List Char) :
    lineStartsFrom offset cs =
      (cs.flatMap String.utf8EncodeChar).idxsOf lineFeed (offset + 1) := by
  induction cs generalizing offset with
  | nil => rfl
  | cons c cs ih =>
    rw [List.flatMap_cons, List.idxsOf_append, String.length_utf8EncodeChar, lineStartsFrom,
      Nat.add_right_comm, ← ih]
    split
    · next h =>
      subst h
      rfl
    · next h =>
      have hnone : (String.utf8EncodeChar c).idxsOf lineFeed (offset + 1) = [] :=
        List.idxsOf_eq_nil_iff.mpr fun b hb =>
          beq_eq_false_iff_ne.mpr fun heq => lineFeed_notMem_utf8EncodeChar h (heq ▸ hb)
      rw [hnone, List.nil_append]

namespace LineIndex

theorem starts_ofText (text : String) :
    (ofText text).starts = 0 :: (utf8Bytes text).idxsOf lineFeed 1 := by
  rw [utf8Bytes_eq_flatMap]
  exact congrArg _ (lineStartsFrom_eq_idxsOf 0 text.toList)

/-- **The index lists where the lines start.** -/
theorem getElem?_starts_iff {text : String} {line start : Nat} :
    (ofText text).starts[line]? = some start ↔ StartsLine text line start := by
  rw [starts_ofText]
  -- a line starts at the beginning of the text or right after a break, that is, not at zero
  cases start with
  | zero =>
    cases line with
    | zero => exact ⟨fun _ => ⟨.inl rfl, rfl⟩, fun _ => rfl⟩
    | succ line =>
      constructor
      · intro h
        have hle := List.ge_of_mem_idxsOf 0 (List.mem_of_getElem? h)
        omega
      · intro h
        exact absurd h.breaks (by simp [breaksBefore])
  | succ k =>
    constructor
    · intro h
      cases line with
      | zero => exact absurd h (by simp)
      | succ line =>
        rw [List.getElem?_cons_succ, Nat.add_comm k 1] at h
        obtain ⟨hbreak, hcount⟩ := getElem?_idxsOf_eq_some_iff.mp h
        exact ⟨.inr hbreak, (breaksBefore_succ hbreak).trans (congrArg (· + 1) hcount)⟩
    · rintro ⟨hzero | hbreak, hcount⟩
      · exact absurd hzero (by omega)
      · rw [Nat.add_sub_cancel] at hbreak
        rw [breaksBefore_succ hbreak] at hcount
        subst hcount
        rw [List.getElem?_cons_succ, Nat.add_comm k 1]
        exact getElem?_idxsOf_eq_some_iff.mpr ⟨hbreak, rfl⟩

end LineIndex

/-- A line starts at one place only. -/
theorem StartsLine.unique {text : String} {line start start' : Nat}
    (h : StartsLine text line start) (h' : StartsLine text line start') : start = start' :=
  Option.some.inj ((LineIndex.getElem?_starts_iff.mpr h).symm.trans
    (LineIndex.getElem?_starts_iff.mpr h'))

namespace LineIndex

/-- A text has one line more than it has line breaks. -/
theorem exists_startsLine_iff {text : String} {line : Nat} :
    (∃ start, StartsLine text line start) ↔ line ≤ breaksBefore text text.utf8ByteSize := by
  have hlength : (ofText text).starts.length = breaksBefore text text.utf8ByteSize + 1 := by
    rw [starts_ofText, List.length_cons, List.length_idxsOf, breaksBefore, ← length_utf8Bytes,
      List.take_length]
  simp only [← getElem?_starts_iff]
  rw [← Option.isSome_iff_exists, isSome_getElem?, hlength, Nat.lt_succ_iff]

/-- **The line of an offset is the number of line breaks before it.** -/
theorem line_position (text : String) (offset : Nat) :
    ((ofText text).position offset).line = breaksBefore text offset := by
  have hcount := countP_idxsOf lineFeed (utf8Bytes text) 1 offset
  simp only [Nat.add_comm 1 offset, Nat.lt_succ_iff] at hcount
  show ((ofText text).starts.filter (· ≤ offset)).length - 1 = _
  rw [starts_ofText, List.filter_cons_of_pos (by simp), List.length_cons, Nat.add_sub_cancel,
    ← List.countP_eq_length_filter, hcount, breaksBefore]

/-- The line of an offset starts at the last line break before it. -/
theorem exists_position_eq (text : String) (offset : Nat) :
    ∃ start, StartsLine text (breaksBefore text offset) start ∧ start ≤ offset ∧
      Unbroken text start offset ∧
      (ofText text).position offset = ⟨breaksBefore text offset, offset - start⟩ := by
  obtain ⟨start, hstart, hsum⟩ := exists_start text offset
  rw [line_position] at hstart
  have hstarts := getElem?_starts_iff.mp hstart
  have hle : start ≤ offset := by omega
  refine ⟨start, hstarts, hle, (breaksBefore_eq_iff hle).mp hstarts.breaks, ?_⟩
  rw [← line_position, show offset - start = ((ofText text).position offset).col by omega]

/-! ### Offsets and their positions -/

/-- **Positions order and measure the text.**  The line of an offset is the number of line
breaks among the bytes before it, and its column is the distance from the byte after the last of
them, or from the first byte.  Offsets come in the order of their positions.  A span has no range
if it ends after the text; otherwise it has one, which contains the positions of the offsets
from its start up to its end. -/
theorem position_measures (text : String) (span : Span) :
    let index := ofText text
    (∀ offset, ∃ start, StartsLine text (breaksBefore text offset) start ∧ start ≤ offset ∧
      Unbroken text start offset ∧
      index.position offset = ⟨breaksBefore text offset, offset - start⟩) ∧
    (∀ offset offset', index.position offset < index.position offset' ↔ offset < offset') ∧
    match index.range? span with
    | none => text.utf8ByteSize < span.stop
    | some range => span.stop ≤ text.utf8ByteSize ∧
      ∀ offset, range.Contains (index.position offset) ↔ span.start ≤ offset ∧ offset ≤ span.stop := by
  intro index
  refine ⟨exists_position_eq text, ?_, ?_⟩
  · intro offset offset'
    rw [Position.lt_iff_not_le, position_le_iff, Nat.not_le]
  · cases hrange : index.range? span with
    | none => exact range?_eq_none_iff.mp hrange
    | some range =>
      obtain ⟨hstop, rfl⟩ := range?_eq_some_iff.mp hrange
      exact ⟨hstop, fun offset => and_congr position_le_iff position_le_iff⟩

/-- The offset of a position lies as far behind the start of its line as the column tells, but not
behind the text. -/
theorem offset?_eq_some_iff {text : String} (hword : text.utf8ByteSize < wordBound) {p : Position}
    {offset : Nat} :
    (ofText text).offset? p = some offset ↔
      ∃ start, StartsLine text p.line start ∧ start + p.col = offset ∧
        offset ≤ text.utf8ByteSize := by
  simp only [offset?, Option.bind_eq_some_iff, getElem?_starts_iff]
  refine exists_congr fun start => and_congr_right fun _ => ?_
  constructor
  · intro h
    split at h
    · next hle => exact ⟨Option.some.inj h, Option.some.inj h ▸ hle.2⟩
    · exact absurd h (by simp)
  · rintro ⟨rfl, hle⟩
    exact if_pos ⟨Nat.lt_of_le_of_lt hle hword, hle⟩

/-- The position of an offset that was reached from another position is this one, unless a line
break was passed on the way, and then it lies behind it. -/
theorem position_of_startsLine {text : String} {p : Position} {start : Nat}
    (h : StartsLine text p.line start) :
    p ≤ (ofText text).position (start + p.col) ∧
      ((ofText text).position (start + p.col) = p ↔ Unbroken text start (start + p.col)) := by
  have hle : start ≤ start + p.col := Nat.le_add_right ..
  have hmono : breaksBefore text start ≤ breaksBefore text (start + p.col) := breaksBefore_le hle
  have hunbroken : breaksBefore text start = breaksBefore text (start + p.col) ↔
      Unbroken text start (start + p.col) := breaksBefore_eq_iff hle
  rw [h.breaks, ← line_position] at hmono hunbroken
  -- on the same line, columns are counted from the same start
  have hsame (heq : p.line = ((ofText text).position (start + p.col)).line) :
      (ofText text).position (start + p.col) = p := by
    obtain ⟨start', hstart', hsum⟩ := exists_start text (start + p.col)
    rw [← heq] at hstart'
    rw [(getElem?_starts_iff.mp hstart').unique h] at hsum
    have hcol : ((ofText text).position (start + p.col)).col = p.col := Nat.add_left_cancel hsum
    exact Position.le_antisymm (.inr ⟨heq.symm, Nat.le_of_eq hcol⟩)
      (.inr ⟨heq, Nat.le_of_eq hcol.symm⟩)
  rw [← hunbroken]
  refine ⟨?_, fun heq => congrArg Position.line heq.symm, hsame⟩
  rcases Nat.lt_or_eq_of_le hmono with hlt | heq
  · exact .inl hlt
  · rw [hsame heq]
    exact Position.le_refl p

/-- **Positions convert back to offsets.**  In a text whose length is a word, every offset up to
the length is read off its own position.  Whatever offset is read off a position lies within the
text and not ahead of the position; its own position is this one unless the column has run past
a line break.  Nothing is read off a position whose line does not exist, or whose column runs past
the end of the text. -/
theorem offset?_inverts {text : String} (hword : text.utf8ByteSize < wordBound) :
    let index := ofText text
    (∀ offset ≤ text.utf8ByteSize, index.offset? (index.position offset) = some offset) ∧
    (∀ p offset, index.offset? p = some offset →
      offset ≤ text.utf8ByteSize ∧ p ≤ index.position offset ∧
      ∃ start, StartsLine text p.line start ∧ start + p.col = offset ∧
        (index.position offset = p ↔ Unbroken text start offset)) ∧
    ∀ p, index.offset? p = none ↔
      breaksBefore text text.utf8ByteSize < p.line ∨
        ∃ start, StartsLine text p.line start ∧ text.utf8ByteSize < start + p.col := by
  intro index
  -- offsets come back; positions come back if their column stays in the line; and the rest is none
  refine ⟨fun offset hle => offset?_position (Nat.lt_of_le_of_lt hle hword) hle, ?_, ?_⟩
  · intro p offset h
    obtain ⟨start, hstart, rfl, hle⟩ := (offset?_eq_some_iff hword).mp h
    obtain ⟨hahead, hexact⟩ := position_of_startsLine hstart
    exact ⟨hle, hahead, start, hstart, rfl, hexact⟩
  · -- nothing comes back if the line is missing, or if the column leads out of the text
    intro p
    have hnone : index.offset? p = none ↔
        ∀ start, StartsLine text p.line start → text.utf8ByteSize < start + p.col := by
      rw [Option.eq_none_iff_forall_ne_some]
      constructor
      · intro h start hstart
        refine Nat.not_le.mp fun hle => h (start + p.col) ?_
        exact (offset?_eq_some_iff hword).mpr ⟨start, hstart, rfl, hle⟩
      · intro h offset hsome
        obtain ⟨start, hstart, rfl, hle⟩ := (offset?_eq_some_iff hword).mp hsome
        exact Nat.not_le.mpr (h start hstart) hle
    rw [hnone, ← Nat.not_le, ← exists_startsLine_iff]
    constructor
    · intro h
      by_cases hline : ∃ start, StartsLine text p.line start
      · obtain ⟨start, hstart⟩ := hline
        exact .inr ⟨start, hstart, h start hstart⟩
      · exact .inl hline
    · rintro (hline | ⟨start, hstart, hlt⟩) start' hstart'
      · exact absurd ⟨start', hstart'⟩ hline
      · rw [hstart'.unique hstart]
        exact hlt

/-- On two lines of two characters, the fifth column of the first line is on the second line, and
the seventh is nowhere. -/
theorem offset?_inverts_columnsPastTheLine :
    let index := ofText "ab\ncd"
    "ab\ncd".utf8ByteSize < wordBound ∧ index.offset? (index.position 4) = some 4 ∧
      index.offset? ⟨0, 4⟩ = some 4 ∧ index.position 4 ≠ ⟨0, 4⟩ ∧ ¬ Unbroken "ab\ncd" 0 4 ∧
      index.offset? ⟨0, 6⟩ = none ∧ index.offset? ⟨2, 0⟩ = none := by
  intro index
  have hword : "ab\ncd".utf8ByteSize < wordBound := by decide
  obtain ⟨hback, hread, hnone⟩ := offset?_inverts hword
  have hfour : index.offset? ⟨0, 4⟩ = some 4 := by decide
  have hother : index.position 4 ≠ ⟨0, 4⟩ := by decide
  obtain ⟨-, -, start, -, hsum, hexact⟩ := hread ⟨0, 4⟩ 4 hfour
  have hstart : start = 0 := Nat.add_right_cancel hsum
  subst hstart
  have hline : StartsLine "ab\ncd" 0 0 := ⟨.inl rfl, rfl⟩
  exact ⟨hword, hback 4 (by decide), hfour, hother, fun h => hother (hexact.mpr h),
    (hnone ⟨0, 6⟩).mpr (.inr ⟨0, hline, by decide⟩), (hnone ⟨2, 0⟩).mpr (.inl (by decide))⟩

end LineIndex

end GrammarIndex
