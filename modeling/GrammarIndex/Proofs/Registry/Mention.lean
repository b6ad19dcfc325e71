import GrammarIndex.Proofs.Registry.Invariant

/-!
# Mentioned names and forgotten documents

A name that is merely mentioned leaves a placeholder behind, and nobody can tell
whether it was mentioned early or late, provided that the names come in the same
order: mentioning commutes with what documents say and with forgetting them.  And
forgetting a document undoes whatever the document has said, so that of everything
it did only the placeholders remain.

## Main definitions

* `Registry.mention` — the registry in which some names have been mentioned.

## Main results

* `Registry.write_mention`, `Registry.forget_mention` — mentioning commutes with
  writing and with forgetting.
* `Registry.kindNamed?_mention` — a placeholder has no kind.
* `Registry.WellFormed.forget_write` — **forgetting a document undoes what it
  said.**
-/

namespace GrammarIndex

namespace Registry

/-! ### Mentioning names -/

/-- The registry in which these names have been mentioned, one after the other. -/
def mention (r : Registry) (names : List String) : Registry :=
  names.foldl (fun r name => (r.resolve name).2) r

@[simp] theorem mention_nil (r : Registry) : r.mention [] = r := rfl

theorem mention_cons (r : Registry) (name : String) (names : List String) :
    r.mention (name :: names) = (r.resolve name).2.mention names := rfl

theorem mention_append (r : Registry) (names names' : List String) :
    r.mention (names ++ names') = (r.mention names).mention names' :=
  List.foldl_append ..

theorem lookup?_resolve_self (r : Registry) (name : String) :
    (r.resolve name).2.lookup? name = some (r.resolve name).1 := by
  rw [lookup?_resolve, if_pos rfl]

/-- A name keeps its handle when other names are mentioned. -/
theorem lookup?_mention {r : Registry} {name : String} {i : SymbolId}
    (h : r.lookup? name = some i) (names : List String) :
    (r.mention names).lookup? name = some i := by
  induction names generalizing r with
  | nil => exact h
  | cons n names ih =>
    rw [mention_cons]
    exact ih ((Keeps.resolve r n).lookup? h)

/-- The names of the registry, once more names have been mentioned. -/
theorem isSome_lookup?_mention (r : Registry) (names : List String) (n : String) :
    ((r.mention names).lookup? n).isSome = ((r.lookup? n).isSome || decide (n ∈ names)) := by
  induction names generalizing r with
  | nil => simp
  | cons name names ih =>
    rw [mention_cons, ih, lookup?_resolve]
    by_cases hname : name = n
    · simp [hname]
    · simp [hname, Ne.symm hname]

/-- A name that was mentioned first resolves as it did then, and is not mentioned
again. -/
theorem resolve_mention_cons (r : Registry) (name : String) (names : List String) :
    (r.mention (name :: names)).resolve name =
      ((r.resolve name).1, (r.resolve name).2.mention names) := by
  rw [mention_cons]
  exact resolve_of_lookup? (lookup?_mention (lookup?_resolve_self r name) names)

/-! ### Placeholders have no kind -/

theorem kind?_resolve (r : Registry) (name : String) (i : SymbolId) :
    (r.resolve name).2.kind? i = r.kind? i := by
  simp only [kind?, symbol?_resolve]
  split
  · next h => rw [h.2, symbol?_size]; rfl
  · rfl

@[simp] theorem kind?_mention (r : Registry) (names : List String) (i : SymbolId) :
    (r.mention names).kind? i = r.kind? i := by
  induction names generalizing r with
  | nil => rfl
  | cons n names ih => rw [mention_cons, ih, kind?_resolve]

theorem kindNamed?_resolve (r : Registry) (name name' : String) :
    (r.resolve name).2.kindNamed? name' = r.kindNamed? name' := by
  unfold kindNamed?
  rw [lookup?_resolve]
  by_cases h : name = name'
  · subst h
    rw [if_pos rfl, Option.bind_some, kind?_resolve]
    cases hn : r.lookup? name with
    | some i => rw [resolve_of_lookup? hn]; rfl
    | none =>
      -- the new place was free before, so no kind can be there
      rw [resolve_of_lookup?_eq_none hn, kind?, symbol?_size]
      rfl
  · -- another name keeps its symbol, and no kind has been set
    rw [if_neg h]
    cases r.lookup? name' with
    | none => rfl
    | some i => exact kind?_resolve r name i

/-- The kinds that names have do not change when other names are mentioned. -/
@[simp] theorem kindNamed?_mention (r : Registry) (names : List String) (name : String) :
    (r.mention names).kindNamed? name = r.kindNamed? name := by
  induction names generalizing r with
  | nil => rfl
  | cons n names ih => rw [mention_cons, ih, kindNamed?_resolve]

/-! ### Changing one element of a list -/

/-- Changing an element of a list leaves what follows the list alone. -/
private theorem modify_append_of_lt {α : Type} {as : List α} {i : Nat} (h : i < as.length)
    (f : α → α) (bs : List α) : (as ++ bs).modify i f = as.modify i f ++ bs := by
  refine List.ext_getElem? fun j => ?_
  simp only [List.getElem?_modify, List.getElem?_append, List.length_modify]
  by_cases hij : i = j
  · subst hij
    simp [h]
  · simp [hij]

/-- A change that a function does not see disappears under it. -/
private theorem map_modify_of_eq {α β : Type} {f : α → α} {g : α → β} (h : ∀ a, g (f a) = g a)
    (as : List α) (i : Nat) : (as.modify i f).map g = as.map g := by
  refine List.ext_getElem? fun j => ?_
  simp only [List.getElem?_map, List.getElem?_modify, Option.map_eq_map, Option.map_map]
  by_cases hij : i = j
  · simp [hij, Function.comp_def, h]
  · simp [hij, Function.comp_def]

/-! ### Mentioning commutes -/

/-- A document may speak of a known symbol before or after a name is mentioned. -/
theorem write_resolve {r : Registry} {i : SymbolId} (hi : i.index < r.size) (d : DocumentId)
    (change : Symbol → Symbol) (name : String) :
    (r.resolve name).2.write d i change = ((r.write d i change).resolve name).2 := by
  cases hn : r.lookup? name with
  | some j =>
    have hn' : (r.write d i change).lookup? name = some j := by rw [lookup?_write, hn]
    rw [resolve_of_lookup? hn, resolve_of_lookup? hn']
  | none =>
    have hn' : (r.write d i change).lookup? name = none := by rw [lookup?_write, hn]
    -- the placeholder comes after every known symbol
    have hlast : i.index < (r.resolve name).2.size := by
      rw [resolve_of_lookup?_eq_none hn, size, List.length_append]
      exact Nat.lt_add_right _ hi
    rw [write_of_lt hlast, resolve_of_lookup?_eq_none hn, resolve_of_lookup?_eq_none hn',
      write_of_lt hi]
    simp only [mk.injEq, and_true]
    refine ⟨?_, ?_⟩
    · simp [size]
    · rw [modify_append_of_lt hi]
      simp [size]

theorem write_mention {r : Registry} {i : SymbolId} (hi : i.index < r.size) (d : DocumentId)
    (change : Symbol → Symbol) (names : List String) :
    (r.mention names).write d i change = (r.write d i change).mention names := by
  induction names generalizing r with
  | nil => rfl
  | cons n names ih =>
    obtain ⟨s, hs⟩ := Option.isSome_iff_exists.mp (symbol?_isSome_iff.mpr hi)
    obtain ⟨s', hs', -⟩ := (Keeps.resolve r n).symbol? hs
    have hi' : i.index < (r.resolve n).2.size := symbol?_isSome_iff.mp (by rw [hs']; rfl)
    rw [mention_cons, mention_cons, ih hi', write_resolve hi]

/-- A document may be forgotten before or after a name is mentioned. -/
theorem forget_resolve (r : Registry) (d : DocumentId) (name : String) :
    (r.resolve name).2.forget d = ((r.forget d).resolve name).2 := by
  cases hn : r.lookup? name with
  | some j =>
    have hn' : (r.forget d).lookup? name = some j := by rw [lookup?_forget, hn]
    rw [resolve_of_lookup? hn, resolve_of_lookup? hn']
  | none =>
    have hn' : (r.forget d).lookup? name = none := by rw [lookup?_forget, hn]
    rw [resolve_of_lookup?_eq_none hn, resolve_of_lookup?_eq_none hn', size_forget]
    simp only [Registry.forget, List.map_append, List.map_singleton, Symbol.forget_placeholder]
    -- the placeholder has nothing to lose, listed or not
    split <;> rfl

theorem forget_mention (r : Registry) (d : DocumentId) (names : List String) :
    (r.mention names).forget d = (r.forget d).mention names := by
  induction names generalizing r with
  | nil => rfl
  | cons n names ih => rw [mention_cons, mention_cons, ih, forget_resolve]

theorem WellFormed.mention {r : Registry} (h : r.WellFormed) (names : List String) :
    (r.mention names).WellFormed := by
  induction names generalizing r with
  | nil => exact h
  | cons n names ih => exact ih (h.resolve n)

/-! ### Forgetting undoes writing -/

/-- In a well-formed registry, forgetting a document takes what it said from every
symbol. -/
theorem WellFormed.forget_eq {r : Registry} (h : r.WellFormed) (d : DocumentId) :
    r.forget d =
      { r with
        symbols := r.symbols.map (·.forget d)
        documents := r.documents.erase d } := by
  simp only [Registry.forget, mk.injEq, true_and, and_true]
  refine List.ext_getElem? fun n => ?_
  have hn := h.symbol?_forget d ⟨n⟩
  simpa [symbol?, Registry.forget] using hn

/-- **Forgetting a document undoes what it said**, whatever that was. -/
theorem WellFormed.forget_write {r : Registry} (h : r.WellFormed) {d : DocumentId}
    {change : Symbol → Symbol} (speech : Symbol.IsSpeech d change) (i : SymbolId) :
    (r.write d i change).forget d = r.forget d := by
  rw [(h.write speech i).forget_eq, h.forget_eq]
  unfold Registry.write
  split
  · simp only [mk.injEq, true_and]
    exact ⟨map_modify_of_eq speech.forget_eq r.symbols i.index, Table.erase_upsert_self _ d _⟩
  · rfl

@[simp] theorem forget_forget (r : Registry) (d : DocumentId) :
    (r.forget d).forget d = r.forget d := by
  have hids : (r.forget d).idsIn d = [] := by rw [idsIn_forget, if_pos rfl]
  unfold Registry.forget at hids ⊢
  simp only [hids, List.not_mem_nil, if_false, List.map_id', Table.erase_erase]

end Registry

end GrammarIndex
