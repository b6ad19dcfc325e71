import GrammarIndex.Table
import Mathlib.Data.List.Forall2
import Mathlib.Data.List.Induction

/-!
# Laws of tables

What the operations of a table do to its keys, and which of them undo one another.
The registry keeps sets as lists without repetitions and maps as tables, so its
invariant says that keys are distinct and that no set is empty.

## Main definitions

* `Table.SetValued` — a table in which every value is a nonempty list without
  repetitions, and no key occurs twice.

## Main results

* `eraseDups_concat`, `find?_eraseDups` — adding elements one at a time drops the repeated
  ones and keeps the first of each.
* `Table.keys_upsert`, `Table.keys_erase` — the keys after an operation.
* `Table.erase_upsert_self` — **erasing a key undoes whatever was written at it.**
* `Table.erase_upsert_of_ne`, `Table.erase_comm` — operations at different keys commute.
* `Table.SetValued.add`, `Table.SetValued.erase` — tables of sets stay tables of
  sets.
-/

namespace GrammarIndex

/-! ### Lists without repetitions -/

section AddNew

variable {α : Type} [DecidableEq α]

theorem addNew_ne_nil (as : List α) (a : α) : addNew as a ≠ [] := by
  intro h
  have hmem : a ∈ addNew as a := mem_addNew.mpr (Or.inr rfl)
  rw [h] at hmem
  exact absurd hmem List.not_mem_nil

theorem nodup_addNew {as : List α} (h : as.Nodup) (a : α) : (addNew as a).Nodup := by
  unfold addNew
  split
  · exact h
  · next hmem =>
    rw [List.nodup_append]
    refine ⟨h, by simp, ?_⟩
    intro b hb c hc hbc
    rw [List.mem_singleton] at hc
    rw [hbc, hc] at hb
    exact hmem hb

/-- Dropping repetitions, the first of equal elements kept, is adding the elements
one at a time. -/
theorem eraseDups_concat (as : List α) (a : α) :
    (as ++ [a]).eraseDups = addNew as.eraseDups a := by
  rw [List.eraseDups_append]
  unfold addNew
  by_cases h : a ∈ as
  · rw [if_pos (List.mem_eraseDups.mpr h)]
    simp [List.removeAll, h]
  · rw [if_neg (fun h' => h (List.mem_eraseDups.mp h'))]
    simp [List.removeAll, h, List.eraseDups_cons]

theorem nodup_eraseDups (as : List α) : as.eraseDups.Nodup := by
  induction as using List.reverseRecOn with
  | nil => exact List.nodup_nil
  | append_singleton as a ih =>
    rw [eraseDups_concat]
    exact nodup_addNew ih a

theorem find?_addNew (as : List α) (a : α) (p : α → Bool) :
    (addNew as a).find? p = (as ++ [a]).find? p := by
  unfold addNew
  split
  · next h =>
    rw [List.find?_append]
    cases hfind : as.find? p with
    | some b => rfl
    | none =>
      -- the element would have been found where it was before
      have ha : p a = false := by simpa using List.find?_eq_none.mp hfind a h
      rw [List.find?_cons_of_neg (by simp [ha])]
      rfl
  · rfl

/-- The first element of a kind is never dropped. -/
@[simp] theorem find?_eraseDups (as : List α) (p : α → Bool) :
    as.eraseDups.find? p = as.find? p := by
  induction as using List.reverseRecOn with
  | nil => rfl
  | append_singleton as a ih =>
    rw [eraseDups_concat, find?_addNew, List.find?_append, List.find?_append, ih]

end AddNew

/-! ### Lists side by side -/

/-- Every element has its counterpart. -/
theorem exists_of_forall₂ {α β : Type} {R : α → β → Prop} {as : List α} {bs : List β}
    (h : List.Forall₂ R as bs) {a : α} (ha : a ∈ as) : ∃ b ∈ bs, R a b := by
  induction h with
  | nil => exact absurd ha List.not_mem_nil
  | cons hab _ ih =>
    rcases List.mem_cons.mp ha with rfl | ha
    · exact ⟨_, List.mem_cons_self, hab⟩
    · obtain ⟨b, hb, hr⟩ := ih ha
      exact ⟨b, List.mem_cons_of_mem _ hb, hr⟩

/-- What follows two lists of the same length stands side by side as well. -/
theorem forall₂_of_append {α β : Type} {R : α → β → Prop} {as as' : List α} {bs bs' : List β}
    (hlength : as.length = bs.length) (h : List.Forall₂ R (as ++ as') (bs ++ bs')) :
    List.Forall₂ R as' bs' := by
  have hdrop := List.forall₂_drop as.length h
  rw [List.drop_left, hlength, List.drop_left] at hdrop
  exact hdrop

namespace Table

variable {κ α : Type} [DecidableEq κ]

/-! ### Keys -/

theorem contains_iff_mem_keys {t : Table κ α} {k : κ} : t.contains k = true ↔ k ∈ t.keys := by
  simp [contains, get?, keys, List.find?_isSome]

@[simp] theorem contains_empty (k : κ) : (empty : Table κ α).contains k = false := rfl

omit [DecidableEq κ] in
@[simp] theorem keys_empty : (empty : Table κ α).keys = [] := rfl

theorem get?_insert_eq_some_iff {t : Table κ α} {k k' : κ} {a b : α} :
    (t.insert k a).get? k' = some b ↔ k = k' ∧ a = b ∨ t.get? k' = some b ∧ k ≠ k' := by
  rw [get?_insert]
  by_cases h : k = k' <;> simp [h]

theorem get?_erase_eq_some_iff {t : Table κ α} {k k' : κ} {b : α} :
    (t.erase k).get? k' = some b ↔ t.get? k' = some b ∧ k ≠ k' := by
  rw [get?_erase]
  by_cases h : k = k' <;> simp [h]

theorem contains_upsert (t : Table κ α) (k k' : κ) (f : Option α → α) :
    (t.upsert k f).contains k' = (decide (k = k') || t.contains k') := by
  rw [contains, get?_upsert]
  by_cases h : k = k' <;> simp [h, contains]

theorem contains_insert (t : Table κ α) (k k' : κ) (a : α) :
    (t.insert k a).contains k' = (decide (k = k') || t.contains k') :=
  contains_upsert t k k' _

theorem contains_erase (t : Table κ α) (k k' : κ) :
    (t.erase k).contains k' = (!decide (k = k') && t.contains k') := by
  rw [contains, get?_erase]
  by_cases h : k = k' <;> simp [h, contains]

/-- A new key comes last, and a key that is there keeps its place. -/
theorem keys_upsert (t : Table κ α) (k : κ) (f : Option α → α) :
    (t.upsert k f).keys = addNew t.keys k := by
  obtain ⟨es⟩ := t
  simp only [upsert, keys]
  induction es with
  | nil => rfl
  | cons e es ih =>
    unfold addNew at ih ⊢
    by_cases h : e.1 = k
    · simp [upsertEntries, h]
    · simp only [upsertEntries, if_neg h, List.map_cons, ih, List.mem_cons, Ne.symm h, false_or]
      split <;> rfl

theorem keys_erase (t : Table κ α) (k : κ) :
    (t.erase k).keys = t.keys.filter fun k' => k' ≠ k := by
  simp only [erase, keys, List.filter_map]
  rfl

/-! ### Operations that undo one another -/

/-- **Erasing a key undoes whatever was written at it**, and the other entries
have kept their order. -/
theorem erase_upsert_self (t : Table κ α) (k : κ) (f : Option α → α) :
    (t.upsert k f).erase k = t.erase k := by
  obtain ⟨es⟩ := t
  simp only [upsert, erase, mk.injEq]
  induction es with
  | nil => simp [upsertEntries]
  | cons e es ih =>
    simp only [upsertEntries]
    split
    · next h => simp [h]
    · next h => rw [List.filter_cons, List.filter_cons, ih]

theorem erase_insert_self (t : Table κ α) (k : κ) (a : α) : (t.insert k a).erase k = t.erase k :=
  erase_upsert_self t k _

theorem erase_of_not_contains {t : Table κ α} {k : κ} (h : t.contains k = false) :
    t.erase k = t := by
  obtain ⟨es⟩ := t
  simp only [erase, mk.injEq, List.filter_eq_self]
  intro e he
  have hne : e.1 ≠ k := by
    rintro rfl
    have hmem : e.1 ∈ keys ⟨es⟩ := List.mem_map_of_mem he
    rw [contains_iff_mem_keys.mpr hmem] at h
    exact absurd h (by simp)
  simpa using hne

@[simp] theorem erase_erase (t : Table κ α) (k : κ) : (t.erase k).erase k = t.erase k :=
  erase_of_not_contains (by simp [contains_erase])

/-! ### Operations at different keys -/

/-- A key may be written before or after another one is erased. -/
theorem erase_upsert_of_ne {k k' : κ} (hk : k ≠ k') (t : Table κ α) (f : Option α → α) :
    (t.upsert k f).erase k' = (t.erase k').upsert k f := by
  obtain ⟨es⟩ := t
  simp only [upsert, erase, mk.injEq]
  induction es with
  | nil => simp [upsertEntries, hk]
  | cons e es ih =>
    by_cases h : e.1 = k
    · -- the entry at hand is changed, and it is not one of those taken out
      have hne : e.1 ≠ k' := fun h' => hk (h.symm.trans h')
      rw [upsertEntries, if_pos h, List.filter_cons_of_pos (by simpa using hk),
        List.filter_cons_of_pos (by simpa using hne), upsertEntries, if_pos h]
    · rw [upsertEntries, if_neg h, List.filter_cons, List.filter_cons, ih]
      split
      · rw [upsertEntries, if_neg h]
      · rfl

theorem erase_insert_of_ne {k k' : κ} (hk : k ≠ k') (t : Table κ α) (a : α) :
    (t.insert k a).erase k' = (t.erase k').insert k a :=
  erase_upsert_of_ne hk t _

theorem erase_comm (t : Table κ α) (k k' : κ) : (t.erase k).erase k' = (t.erase k').erase k := by
  simp only [erase, List.filter_filter, Bool.and_comm]

/-! ### Tables of sets -/

/-- No key occurs twice, and every value is a nonempty list without repetitions. -/
structure SetValued (t : Table κ (List α)) : Prop where
  /-- No key occurs twice. -/
  keys_nodup : t.keys.Nodup
  /-- No set is empty. -/
  ne_nil : ∀ {k : κ} {as : List α}, t.get? k = some as → as ≠ []
  /-- No element occurs twice in a set. -/
  nodup : ∀ {k : κ} {as : List α}, t.get? k = some as → as.Nodup

namespace SetValued

theorem empty : (Table.empty : Table κ (List α)).SetValued where
  keys_nodup := List.nodup_nil
  ne_nil := by intro k as h; simp at h
  nodup := by intro k as h; simp at h

/-- The set at a key has no repetitions, and neither has the set of a key that is not there. -/
theorem nodup_getD {t : Table κ (List α)} (h : t.SetValued) (k : κ) :
    ((t.get? k).getD []).Nodup := by
  cases hk : t.get? k with
  | none => exact List.nodup_nil
  | some as => exact h.nodup hk

variable [DecidableEq α]

/-- One more element in the set at a key. -/
theorem add {t : Table κ (List α)} (h : t.SetValued) (k : κ) (a : α) :
    (t.upsert k fun as => addNew (as.getD []) a).SetValued where
  keys_nodup := by rw [keys_upsert]; exact nodup_addNew h.keys_nodup k
  ne_nil := by
    intro k' as hk
    rw [get?_upsert] at hk
    split at hk
    · rw [← Option.some.inj hk]; exact addNew_ne_nil _ a
    · exact h.ne_nil hk
  nodup := by
    intro k' as hk
    rw [get?_upsert] at hk
    -- the set at the key gets the element, and the others stay
    split at hk
    · rw [← Option.some.inj hk]
      refine nodup_addNew ?_ a
      cases hold : t.get? k with
      | none => exact List.nodup_nil
      | some old => exact h.nodup hold
    · exact h.nodup hk

omit [DecidableEq α] in
theorem erase {t : Table κ (List α)} (h : t.SetValued) (k : κ) : (t.erase k).SetValued where
  keys_nodup := by rw [keys_erase]; exact h.keys_nodup.filter _
  ne_nil := by
    intro k' as hk
    rw [get?_erase] at hk
    split at hk
    · exact absurd hk (by simp)
    · exact h.ne_nil hk
  nodup := by
    intro k' as hk
    rw [get?_erase] at hk
    split at hk
    · exact absurd hk (by simp)
    · exact h.nodup hk

end SetValued

end Table

end GrammarIndex
