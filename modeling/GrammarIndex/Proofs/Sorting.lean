import GrammarIndex.Sorting
import GrammarIndex.Symbol.Basic

/-!
# Laws of sorting by a key

Elements with equal keys keep their order when a list is sorted.  So it does not matter whether
elements are picked before or after sorting, and what holds of any two elements with equal keys in
the list, the one before the other, holds of them in the sorted list.

## Main results

* `isLinearOrder_of_lex`, `lawfulOrderLT_of_lex` — comparing by one key, and then by another.
* `sortOn_cons` — where one more element goes.
* `filter_sortOn` — **to sort and then to pick is to pick and then to sort.**
* `pairwise_sortOn_ties`, `pairwise_lt_sortOn` — what holds of any two elements of the sorted list.
-/

namespace GrammarIndex

/-! ### Linear orders -/

section Lex

variable {α β γ : Type} [LE α] [LE β] [LT β] [Std.IsLinearOrder β] [Std.LawfulOrderLT β]
  [LE γ] [Std.IsLinearOrder γ] (major : α → β) (minor : α → γ)
  (le_iff : ∀ a b, a ≤ b ↔ major a < major b ∨ major a = major b ∧ minor a ≤ minor b)

include le_iff

/-- An order that compares by one key, and by a second one where the first leaves a tie, is
linear if the two keys tell elements apart. -/
theorem isLinearOrder_of_lex (ext : ∀ a b, major a = major b → minor a = minor b → a = b) :
    Std.IsLinearOrder α where
  le_refl a := (le_iff a a).mpr (.inr ⟨rfl, Std.le_refl _⟩)
  le_trans a b c hab hbc := by
    rw [le_iff] at *
    rcases hab with hab | ⟨hab, hab'⟩ <;> rcases hbc with hbc | ⟨hbc, hbc'⟩
    · exact .inl (Std.lt_trans hab hbc)
    · exact .inl (hbc ▸ hab)
    · exact .inl (hab ▸ hbc)
    · exact .inr ⟨hab.trans hbc, Std.le_trans hab' hbc'⟩
  le_antisymm a b hab hba := by
    rw [le_iff] at hab hba
    rcases hab with hab | ⟨hab, hab'⟩ <;> rcases hba with hba | ⟨hba, hba'⟩
    · exact absurd (Std.lt_trans hab hba) Std.lt_irrefl
    · exact absurd (hba ▸ hab) Std.lt_irrefl
    · exact absurd (hab ▸ hba) Std.lt_irrefl
    · exact ext a b hab (Std.le_antisymm hab' hba')
  le_total a b := by
    rw [le_iff, le_iff]
    rcases Std.lt_trichotomy (major a) (major b) with h | h | h
    · exact .inl (.inl h)
    · exact (Std.le_total (a := minor a) (b := minor b)).imp (.inr ⟨h, ·⟩) (.inr ⟨h.symm, ·⟩)
    · exact .inr (.inl h)

omit [Std.IsLinearOrder γ] in
/-- The strict order compares in the same way. -/
theorem lawfulOrderLT_of_lex [LT α] [LT γ] [Std.LawfulOrderLT γ]
    (lt_iff : ∀ a b, a < b ↔ major a < major b ∨ major a = major b ∧ minor a < minor b) :
    Std.LawfulOrderLT α where
  lt_iff a b := by
    rw [lt_iff, le_iff, le_iff]
    rcases Std.lt_trichotomy (major a) (major b) with h | h | h
    · have hne : major b ≠ major a := fun heq => Std.lt_irrefl (heq ▸ h)
      have hgt : ¬ major b < major a := fun hgt => Std.lt_irrefl (Std.lt_trans h hgt)
      simp [h, hne, hgt]
    · have hirrefl : ¬ major b < major b := Std.lt_irrefl
      simp [h, hirrefl, Std.lt_iff_le_and_not_ge]
    · have hne : major a ≠ major b := fun heq => Std.lt_irrefl (heq ▸ h)
      have hgt : ¬ major a < major b := fun hgt => Std.lt_irrefl (Std.lt_trans h hgt)
      simp [hne, hgt]

end Lex

/-! ### Places in documents -/

instance : Std.IsLinearOrder Position where
  le_refl := Position.le_refl
  le_trans _ _ _ := Position.le_trans
  le_antisymm _ _ := Position.le_antisymm
  le_total := Position.le_total

instance : Std.LawfulOrderLT Position where
  lt_iff a b := by rw [Position.lt_def, Position.le_def, Position.le_def]; omega

instance : Std.IsLinearOrder Range :=
  isLinearOrder_of_lex Range.start Range.stop (fun _ _ => Range.le_def)
    fun a b hstart hstop => by cases a; cases b; cases hstart; cases hstop; rfl

instance : Std.LawfulOrderLT Range :=
  lawfulOrderLT_of_lex Range.start Range.stop (fun _ _ => Range.le_def) fun _ _ => Range.lt_def

theorem DocumentId.index_inj {d d' : DocumentId} : d.index = d'.index ↔ d = d' := by
  cases d; cases d'; simp

namespace Location

/-- The strict order that belongs to `≤`. -/
instance : LT Location where
  lt a b := a.document.index < b.document.index ∨ a.document = b.document ∧ a.range < b.range

theorem le_iff_lex (a b : Location) :
    a ≤ b ↔ a.document.index < b.document.index ∨
      a.document.index = b.document.index ∧ a.range ≤ b.range := by
  rw [le_def, DocumentId.index_inj]

theorem lt_iff_lex (a b : Location) :
    a < b ↔ a.document.index < b.document.index ∨
      a.document.index = b.document.index ∧ a.range < b.range := by
  rw [DocumentId.index_inj]
  exact Iff.rfl

instance : Std.IsLinearOrder Location :=
  isLinearOrder_of_lex (·.document.index) (·.range) le_iff_lex fun a b hdocument hrange => by
    obtain ⟨⟨_⟩, _⟩ := a
    obtain ⟨⟨_⟩, _⟩ := b
    cases hdocument
    cases hrange
    rfl

instance : Std.LawfulOrderLT Location :=
  lawfulOrderLT_of_lex (·.document.index) (·.range) le_iff_lex lt_iff_lex

end Location

/-! ### Sorted lists -/

section

variable {α β : Type} [LE β] [DecidableLE β] [Std.IsLinearOrder β] (key : α → β)

theorem pairwise_le_sortOn (as : List α) :
    (sortOn key as).Pairwise fun a b => key a ≤ key b :=
  pairwise_sortOn Std.le_trans (fun _ _ => Std.le_total) key as

/-- One more element goes between those with a smaller key and the others, and these keep their
order. -/
theorem sortOn_cons (a : α) (as : List α) :
    let smaller := (sortOn key as).filter fun b => ¬ key a ≤ key b
    let others := (sortOn key as).filter fun b => key a ≤ key b
    sortOn key as = smaller ++ others ∧ sortOn key (a :: as) = smaller ++ a :: others := by
  obtain ⟨before, after, hcons, has, hbefore⟩ :=
    @List.mergeSort_cons α (fun a b => decide (key a ≤ key b))
      (fun a b c => by simpa using Std.le_trans)
      (fun a b => by simpa using Std.le_total) a as
  have hsorted := pairwise_le_sortOn key (a :: as)
  rw [sortOn, hcons] at hsorted
  obtain ⟨-, hsorted, -⟩ := List.pairwise_append.mp hsorted
  have hafter : ∀ b ∈ after, key a ≤ key b := (List.pairwise_cons.mp hsorted).1
  have hbefore : ∀ b ∈ before, ¬ key a ≤ key b := fun b hb => by simpa using hbefore b hb
  -- the two parts of the sorted rest are told apart by how their keys compare with the new one
  have hsmaller : (sortOn key as).filter (fun b => ¬ key a ≤ key b) = before := by
    rw [sortOn, has, List.filter_append, List.filter_eq_self.mpr (by simpa),
      List.filter_eq_nil_iff.mpr (by simpa), List.append_nil]
  have hothers : (sortOn key as).filter (fun b => key a ≤ key b) = after := by
    rw [sortOn, has, List.filter_append, List.filter_eq_nil_iff.mpr (by simpa),
      List.filter_eq_self.mpr (by simpa), List.nil_append]
  rw [hsmaller, hothers]
  exact ⟨has, hcons⟩

/-- **To sort and then to pick is to pick and then to sort**, also where keys are equal. -/
theorem filter_sortOn (p : α → Bool) (as : List α) :
    (sortOn key as).filter p = sortOn key (as.filter p) := by
  induction as with
  | nil => simp [sortOn]
  | cons a as ih =>
    obtain ⟨hsplit, hcons⟩ := sortOn_cons key a as
    cases ha : p a with
    | false =>
      rw [List.filter_cons_of_neg (by simp [ha]), ← ih, hcons, List.filter_append,
        List.filter_cons_of_neg (by simp [ha]), ← List.filter_append, ← hsplit]
    | true =>
      rw [List.filter_cons_of_pos ha, (sortOn_cons key a (as.filter p)).2, ← ih, hcons,
        List.filter_append, List.filter_cons_of_pos ha]
      simp only [List.filter_filter, Bool.and_comm]

omit [Std.IsLinearOrder β] in
/-- To sort and then to rename is to rename and then to sort, if the keys stay. -/
theorem map_sortOn {γ : Type} (key' : γ → β) (f : α → γ) {as : List α}
    (hkey : ∀ a ∈ as, key' (f a) = key a) :
    (sortOn key as).map f = sortOn key' (as.map f) :=
  List.map_mergeSort fun a ha b hb => by rw [hkey a ha, hkey b hb]

/-- What holds of any two elements of the list with equal keys, the one before the other, holds
of them in the sorted list. -/
theorem pairwise_sortOn_ties [LT β] [Std.LawfulOrderLT β] {R : α → α → Prop} {as : List α}
    (h : as.Pairwise fun a b => key a = key b → R a b) :
    (sortOn key as).Pairwise fun a b => key a < key b ∨ key a = key b ∧ R a b := by
  induction as with
  | nil => simp [sortOn]
  | cons a as ih =>
    obtain ⟨ha, has⟩ := List.pairwise_cons.mp h
    rw [(sortOn_cons key a as).2, List.pairwise_append, List.pairwise_cons]
    refine ⟨(ih has).filter _, ⟨fun b hb => ?_, (ih has).filter _⟩, fun b hb c hc => .inl ?_⟩
    · -- after the new element: the key is larger, or the tie goes by the order in the list
      obtain ⟨hb, hle⟩ := List.mem_filter.mp hb
      rcases Std.le_iff_lt_or_eq.mp (of_decide_eq_true hle) with hlt | heq
      · exact .inl hlt
      · exact .inr ⟨heq, ha b (mem_sortOn.mp hb) heq⟩
    · -- before it: the key is smaller, and so smaller than all that follow
      have hlt : key b < key a := Std.not_le.mp (by simpa using (List.mem_filter.mp hb).2)
      rcases List.mem_cons.mp hc with rfl | hc
      · exact hlt
      · exact Std.lt_of_lt_of_le hlt (by simpa using (List.mem_filter.mp hc).2)

/-- If no two elements have the same key, the keys of the sorted list strictly ascend. -/
theorem pairwise_lt_sortOn [LT β] [Std.LawfulOrderLT β] {as : List α}
    (h : (as.map key).Nodup) : (sortOn key as).Pairwise fun a b => key a < key b := by
  have hties : as.Pairwise fun a b => key a = key b → False := List.pairwise_map.mp h
  exact (pairwise_sortOn_ties key hties).imp (by simp)

end

end GrammarIndex
