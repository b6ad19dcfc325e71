import GrammarIndex.Text.LineIndex
import Mathlib.Data.String.Basic

/-!
# Lines and offsets

The starts of the lines of a text ascend, so that the line of an offset is the last one
that starts at or before it, and nothing is lost when an offset is told by line and
column.

## Main definitions

* `StandsAt` — the character at an offset of a text.

## Main results

* `LineIndex.exists_start` — line and column of an offset add up to it.
* `LineIndex.position_inj`, `LineIndex.range?_inj` — different offsets have different
  positions, and different spans different ranges.
* `LineIndex.position_le_iff` — offsets come in the order of their positions.
* `LineIndex.offset?_position` — **an offset can be read off its position.**
* `charAtOffset?_eq_some_iff` — the character at an offset is the one after that many bytes.
-/

namespace GrammarIndex

/-! ### Ascending lists -/

/-- The numbers up to a bound come first in an ascending list. -/
theorem filter_le_isPrefix {ns : List Nat} (h : ns.Pairwise (· < ·)) (bound : Nat) :
    ns.filter (· ≤ bound) <+: ns := by
  induction ns with
  | nil => exact List.prefix_rfl
  | cons n ns ih =>
    obtain ⟨hhead, htail⟩ := List.pairwise_cons.mp h
    by_cases hn : n ≤ bound
    · rw [List.filter_cons_of_pos (by simpa using hn)]
      exact (List.cons_prefix_cons).mpr ⟨rfl, ih htail⟩
    · -- whatever follows is larger still
      have hnone : ∀ m ∈ n :: ns, ¬ (decide (m ≤ bound) = true) := by
        intro m hm hle
        have hle' : m ≤ bound := of_decide_eq_true hle
        rcases List.mem_cons.mp hm with rfl | hm
        · exact hn hle'
        · have := hhead m hm
          omega
      rw [List.filter_eq_nil_iff.mpr hnone]
      exact List.nil_prefix

/-- Line breaks further down start lines further down. -/
theorem lt_of_mem_lineStartsFrom {offset n : Nat} {cs : List Char}
    (h : n ∈ lineStartsFrom offset cs) : offset < n := by
  induction cs generalizing offset with
  | nil => exact absurd h List.not_mem_nil
  | cons c cs ih =>
    have hc := c.utf8Size_pos
    unfold lineStartsFrom at h
    split at h
    · rcases List.mem_cons.mp h with rfl | h
      · omega
      · have := ih h
        omega
    · have := ih h
      omega

theorem pairwise_lineStartsFrom (offset : Nat) (cs : List Char) :
    (lineStartsFrom offset cs).Pairwise (· < ·) := by
  induction cs generalizing offset with
  | nil => exact List.Pairwise.nil
  | cons c cs ih =>
    unfold lineStartsFrom
    split
    · exact List.pairwise_cons.mpr ⟨fun n hn => lt_of_mem_lineStartsFrom hn, ih _⟩
    · exact ih _

/-! ### Positions of offsets -/

namespace LineIndex

theorem pairwise_starts (text : String) : (ofText text).starts.Pairwise (· < ·) :=
  List.pairwise_cons.mpr
    ⟨fun _ hn => lt_of_mem_lineStartsFrom hn, pairwise_lineStartsFrom 0 text.toList⟩

/-- **Line and column of an offset add up to it.** -/
theorem exists_start (text : String) (offset : Nat) :
    ∃ start, (ofText text).starts[((ofText text).position offset).line]? = some start ∧
      start + ((ofText text).position offset).col = offset := by
  let starts := (ofText text).starts
  let before := starts.filter (· ≤ offset)
  obtain ⟨after, hafter⟩ := filter_le_isPrefix (pairwise_starts text) offset
  have hsplit : starts = before ++ after := hafter.symm
  -- the first line starts at or before every offset
  have hzero : 0 ∈ before := List.mem_filter.mpr ⟨List.mem_cons_self, by simp⟩
  have hne : before ≠ [] := List.ne_nil_of_mem hzero
  have hlast : before.getLast? = some (before.getLast hne) := List.getLast?_eq_some_getLast hne
  have hle : before.getLast hne ≤ offset :=
    of_decide_eq_true (List.mem_filter.mp (List.getLast_mem hne)).2
  have hlength := List.length_pos_of_ne_nil hne
  refine ⟨before.getLast hne, ?_, ?_⟩
  · show starts[before.length - 1]? = _
    rw [hsplit, List.getElem?_append_left (by omega), ← List.getLast?_eq_getElem?]
    exact hlast
  · show before.getLast hne + (offset - before.getLastD 0) = offset
    rw [List.getLastD_eq_getLast?, hlast]
    exact Nat.add_sub_cancel' hle

/-- Different offsets have different positions. -/
theorem position_inj {text : String} {offset offset' : Nat} :
    (ofText text).position offset = (ofText text).position offset' ↔ offset = offset' := by
  constructor
  · intro h
    obtain ⟨start, hstart, hsum⟩ := exists_start text offset
    obtain ⟨start', hstart', hsum'⟩ := exists_start text offset'
    rw [h] at hstart hsum
    rw [Option.some.inj (hstart.symm.trans hstart')] at hsum
    exact hsum.symm.trans hsum'
  · exact congrArg _

/-- Offsets further down have positions further down. -/
theorem position_mono {text : String} {offset offset' : Nat} (h : offset ≤ offset') :
    (ofText text).position offset ≤ (ofText text).position offset' := by
  -- whatever line starts at or before the one starts at or before the other
  have hline : ((ofText text).position offset).line ≤ ((ofText text).position offset').line := by
    refine Nat.sub_le_sub_right ?_ 1
    rw [← List.countP_eq_length_filter, ← List.countP_eq_length_filter]
    refine List.countP_mono_left fun start _ hstart => ?_
    exact decide_eq_true (Nat.le_trans (of_decide_eq_true hstart) h)
  rcases Nat.lt_or_eq_of_le hline with hline | hline
  · exact Or.inl hline
  · -- on one line, columns are counted from one start
    obtain ⟨start, hstart, hsum⟩ := exists_start text offset
    obtain ⟨start', hstart', hsum'⟩ := exists_start text offset'
    rw [hline] at hstart
    rw [Option.some.inj (hstart'.symm.trans hstart)] at hsum'
    exact Or.inr ⟨hline, by omega⟩

/-- **Offsets come in the order of their positions.** -/
theorem position_le_iff {text : String} {offset offset' : Nat} :
    (ofText text).position offset ≤ (ofText text).position offset' ↔ offset ≤ offset' := by
  refine ⟨fun h => ?_, position_mono⟩
  rcases Nat.le_total offset offset' with hle | hle
  · exact hle
  · exact Nat.le_of_eq (position_inj.mp (Position.le_antisymm h (position_mono hle)))

/-- Different spans have different ranges. -/
theorem range?_inj {text : String} {span span' : Span} {range : Range}
    (h : (ofText text).range? span = some range) (h' : (ofText text).range? span' = some range) :
    span = span' := by
  obtain ⟨-, rfl⟩ := range?_eq_some_iff.mp h
  obtain ⟨-, hrange⟩ := range?_eq_some_iff.mp h'
  obtain ⟨start, stop⟩ := span
  obtain ⟨start', stop'⟩ := span'
  simp only [Range.mk.injEq, position_inj] at hrange
  rw [hrange.1, hrange.2]

/-- **An offset can be read off its position.** -/
theorem offset?_position {text : String} {offset : Nat} (hword : offset < wordBound)
    (hlength : offset ≤ text.utf8ByteSize) :
    (ofText text).offset? ((ofText text).position offset) = some offset := by
  obtain ⟨start, hstart, hsum⟩ := exists_start text offset
  rw [offset?, hstart, Option.bind_some]
  simp only [hsum]
  exact if_pos ⟨hword, hlength⟩

end LineIndex

/-! ### Characters at offsets -/

/-- The character comes after as many bytes of the text as the offset tells. -/
def StandsAt (text : String) (offset : Nat) (c : Char) : Prop :=
  ∃ before after, text.toList = before ++ c :: after ∧ String.utf8Len before = offset

/-- The character that follows a part of the text. -/
theorem charAtOffset?_utf8Len (before : List Char) (c : Char) (after : List Char) :
    charAtOffset? (String.utf8Len before) (before ++ c :: after) = some c := by
  induction before with
  | nil => rfl
  | cons b before ih =>
    have hb := b.utf8Size_pos
    rw [String.utf8Len_cons, List.cons_append, charAtOffset?, if_neg (by omega),
      if_pos (by omega), Nat.add_sub_cancel]
    exact ih

/-- **The character at an offset is the one after that many bytes.** -/
theorem charAtOffset?_eq_some_iff {text : String} {offset : Nat} {c : Char} :
    charAtOffset? offset text.toList = some c ↔ StandsAt text offset c := by
  constructor
  · -- by induction on the characters, with the offset counted down
    unfold StandsAt
    generalize text.toList = cs
    intro h
    induction cs generalizing offset with
    | nil => exact absurd h (by simp [charAtOffset?])
    | cons b cs ih =>
      unfold charAtOffset? at h
      split at h
      · next hzero => exact ⟨[], cs, congrArg (· :: cs) (Option.some.inj h), hzero.symm⟩
      · split at h
        · next hle =>
          obtain ⟨before, after, rfl, hbefore⟩ := ih h
          refine ⟨b :: before, after, rfl, ?_⟩
          rw [String.utf8Len_cons]
          omega
        · -- the offset lies inside a character
          exact absurd h (by simp)
  · rintro ⟨before, after, htext, rfl⟩
    rw [htext]
    exact charAtOffset?_utf8Len before c after

end GrammarIndex
