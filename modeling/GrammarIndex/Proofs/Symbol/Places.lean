import GrammarIndex.Proofs.Symbol.Speech
import Mathlib.Data.List.Nodup

/-!
# The places of a symbol

A symbol keeps its ranges document by document.  Listed as locations they are the ranges of each
document in turn, and none of them is listed twice.

## Main results

* `Symbol.filter_locations` — the locations in one document are the ranges of that document, in
  their order.
* `Symbol.nodup_locations` — no location is listed twice.
-/

namespace GrammarIndex

namespace Symbol

section

variable {t : Table DocumentId (List Range)}

/-- The locations in a document are the ranges of that document, in their order. -/
theorem filter_locations (h : t.keys.Nodup) (d : DocumentId) :
    (locations t).filter (fun l => l.document = d) = ((t.get? d).getD []).map (⟨d, ·⟩) := by
  obtain ⟨es⟩ := t
  induction es with
  | nil => rfl
  | cons e es ih =>
    obtain ⟨he, hes⟩ := List.nodup_cons.mp h
    have hcons : locations ⟨e :: es⟩ = e.2.map (⟨e.1, ·⟩) ++ locations ⟨es⟩ := rfl
    rw [hcons, List.filter_append, ih hes, Table.get?_cons, List.filter_map]
    by_cases hd : e.1 = d
    · -- the key does not come again, so the rest has nothing for it
      subst hd
      have hnone : Table.get? ⟨es⟩ e.1 = none :=
        Option.not_isSome_iff_eq_none.mp fun hsome => he (Table.contains_iff_mem_keys.mp hsome)
      simp [hnone, Function.comp_def]
    · simp [hd, Function.comp_def]

theorem mem_locations_iff (h : t.keys.Nodup) {l : Location} :
    l ∈ locations t ↔ l.range ∈ (t.get? l.document).getD [] := by
  obtain ⟨d, range⟩ := l
  have hfilter := congrArg (⟨d, range⟩ ∈ ·) (filter_locations h d)
  simpa using hfilter

/-- No location is listed twice. -/
theorem nodup_locations (h : t.SetValued) : (locations t).Nodup := by
  refine List.nodup_iff_count.mpr fun l => ?_
  have hcount : (locations t).count l =
      ((locations t).filter fun l' => l'.document = l.document).count l :=
    (List.count_filter (by simp)).symm
  rw [hcount, filter_locations h.keys_nodup]
  refine List.nodup_iff_count.mp ?_ l
  exact (h.nodup_getD l.document).map fun _ _ heq => congrArg Location.range heq

end

end Symbol

end GrammarIndex
