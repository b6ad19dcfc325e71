/-!
# Sorting by a key

## Main definitions

* `sortOn` — a list in ascending order of a key.

## Main results

* `sortOn_perm` — sorting rearranges the list.
* `pairwise_sortOn` — the keys of the sorted list ascend.
-/

namespace GrammarIndex

variable {α β : Type} [LE β] [DecidableLE β]

/-- The list in ascending order of a key.  Elements with equal keys keep their
order. -/
def sortOn (key : α → β) (as : List α) : List α :=
  as.mergeSort fun a b => decide (key a ≤ key b)

theorem sortOn_perm (key : α → β) (as : List α) : (sortOn key as).Perm as :=
  List.mergeSort_perm as _

@[simp] theorem mem_sortOn {key : α → β} {as : List α} {a : α} : a ∈ sortOn key as ↔ a ∈ as :=
  (sortOn_perm key as).mem_iff

/-- The keys of the sorted list ascend, if the order on keys is transitive and
total. -/
theorem pairwise_sortOn (le_trans : ∀ {x y z : β}, x ≤ y → y ≤ z → x ≤ z)
    (le_total : ∀ x y : β, x ≤ y ∨ y ≤ x) (key : α → β) (as : List α) :
    (sortOn key as).Pairwise fun a b => key a ≤ key b := by
  have sorted : (sortOn key as).Pairwise fun a b => decide (key a ≤ key b) = true :=
    List.pairwise_mergeSort (fun a b c => by simpa using le_trans)
      (fun a b => by simpa using le_total (key a) (key b)) as
  simpa using sorted

end GrammarIndex
