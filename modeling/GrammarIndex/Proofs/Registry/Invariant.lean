import GrammarIndex.Proofs.Symbol.Speech
import GrammarIndex.Registry.History

/-!
# The invariant of the registry

The registry says the same thing three times: a symbol knows its handle, its name
and the documents that speak of it, and the two indices beside the symbols repeat
names and documents.  Every operation updates the three on its own, and may give up
half way, when a handle was never given out or a statement comes too late.  That
they agree nevertheless is the invariant of this module.

## Main definitions

* `Registry.WellFormed` — the invariant.
* `Registry.Step` — everything that an operation can do to a registry.
* `Registry.Keeps` — what a later registry keeps of an earlier one.

## Main results

* `Registry.WellFormed.step`, `Registry.Keeps.step` — one step.
* `Registry.replay_empty_wellFormed` — **the invariant holds after every history**,
  and no history takes a handle away or gives one out twice.
-/

namespace GrammarIndex

namespace Registry

/-! ### The invariant -/

/-- The symbols and the two indices agree, and every set in them is a set. -/
structure WellFormed (r : Registry) : Prop where
  /-- Every symbol stands at the place that its handle tells. -/
  id_eq : ∀ {i : SymbolId} {s : Symbol}, r.symbol? i = some s → s.id = i
  /-- The index by name leads to the symbol of that name, and to no other. -/
  lookup?_eq_some_iff : ∀ {name : String} {i : SymbolId},
    r.lookup? name = some i ↔ ∃ s, r.symbol? i = some s ∧ s.qualifiedName = name
  /-- The index by document lists the symbols that the document speaks of. -/
  mem_idsIn_iff : ∀ {d : DocumentId} {i : SymbolId},
    i ∈ r.idsIn d ↔ ∃ s, r.symbol? i = some s ∧ s.SpokenOfBy d
  /-- No name occurs twice in the index by name. -/
  names_nodup : r.names.keys.Nodup
  /-- The index by document has no empty set, and its sets have no repetitions. -/
  documents : r.documents.SetValued
  /-- Neither have the sets of ranges that the symbols hold. -/
  symbol : ∀ {i : SymbolId} {s : Symbol}, r.symbol? i = some s → s.WellFormed

/-! ### Symbols after an operation -/

theorem symbol?_eq_none_iff {r : Registry} {i : SymbolId} :
    r.symbol? i = none ↔ r.size ≤ i.index := by
  simp [symbol?, size]

theorem symbol?_size (r : Registry) : r.symbol? ⟨r.size⟩ = none :=
  symbol?_eq_none_iff.mpr (Nat.le_refl _)

theorem symbol?_isSome_iff {r : Registry} {i : SymbolId} :
    (r.symbol? i).isSome = true ↔ i.index < r.size := by
  simp [symbol?, size]

theorem resolve_of_lookup? {r : Registry} {name : String} {i : SymbolId}
    (h : r.lookup? name = some i) : r.resolve name = (i, r) := by
  simp [resolve, h]

theorem resolve_of_lookup?_eq_none {r : Registry} {name : String} (h : r.lookup? name = none) :
    r.resolve name =
      (⟨r.size⟩, { r with
        symbols := r.symbols ++ [.placeholder ⟨r.size⟩ name]
        names := r.names.insert name ⟨r.size⟩ }) := by
  simp [resolve, h]

theorem write_of_lt {r : Registry} {i : SymbolId} (hi : i.index < r.size) (d : DocumentId)
    (change : Symbol → Symbol) :
    r.write d i change =
      { r with
        symbols := r.symbols.modify i.index change
        documents := r.documents.upsert d fun ids => addNew (ids.getD []) i } :=
  if_pos hi

/-- A name that is mentioned for the first time gets a placeholder in the next
place; all other symbols stay. -/
theorem symbol?_resolve (r : Registry) (name : String) (i : SymbolId) :
    (r.resolve name).2.symbol? i =
      if r.lookup? name = none ∧ i = ⟨r.size⟩ then some (.placeholder i name)
      else r.symbol? i := by
  obtain ⟨i⟩ := i
  unfold resolve
  split
  · next h => simp [h]
  · next h =>
    simp only [h, true_and, symbol?, List.getElem?_append, size, SymbolId.mk.injEq]
    rcases Nat.lt_trichotomy i r.symbols.length with hi | rfl | hi
    · rw [if_pos hi, if_neg (Nat.ne_of_lt hi)]
    · simp
    · have hlate : [Symbol.placeholder ⟨r.symbols.length⟩ name].length ≤ i - r.symbols.length := by
        rw [List.length_singleton]
        omega
      rw [if_neg (Nat.lt_asymm hi), if_neg (Nat.ne_of_gt hi), List.getElem?_eq_none hlate,
        List.getElem?_eq_none (Nat.le_of_lt hi)]

/-- A symbol after a change is one from before, changed or as it was. -/
theorem symbol?_of_symbol?_write {r : Registry} {d : DocumentId} {i j : SymbolId}
    {change : Symbol → Symbol} {s' : Symbol} (h : (r.write d i change).symbol? j = some s') :
    ∃ s, r.symbol? j = some s ∧ (s' = change s ∨ s' = s) := by
  rw [symbol?_write] at h
  split at h
  · obtain ⟨s, hs, hs'⟩ := Option.map_eq_some_iff.mp h
    exact ⟨s, hs, Or.inl hs'.symm⟩
  · exact ⟨s', h, Or.inr rfl⟩

@[simp] theorem idsIn_resolve (r : Registry) (name : String) (d : DocumentId) :
    (r.resolve name).2.idsIn d = r.idsIn d := by
  simp [idsIn]

@[simp] theorem lookup?_write (r : Registry) (d : DocumentId) (i : SymbolId)
    (change : Symbol → Symbol) (name : String) :
    (r.write d i change).lookup? name = r.lookup? name := by
  simp [lookup?]

@[simp] theorem lookup?_forget (r : Registry) (d : DocumentId) (name : String) :
    (r.forget d).lookup? name = r.lookup? name := rfl

/-- In a well-formed registry, every symbol loses what the document said: one that
the index by document does not list has nothing to lose. -/
theorem WellFormed.symbol?_forget {r : Registry} (h : r.WellFormed) (d : DocumentId)
    (i : SymbolId) : (r.forget d).symbol? i = (r.symbol? i).map (·.forget d) := by
  rw [Registry.symbol?_forget]
  cases hs : r.symbol? i with
  | none => rfl
  | some s =>
    simp only [Option.map_some, Option.some.injEq]
    split
    · rfl
    · next hmem =>
      refine (Symbol.forget_of_not_spokenOfBy ?_).symm
      intro hspoken
      rw [h.id_eq hs] at hmem
      exact hmem (h.mem_idsIn_iff.mpr ⟨s, hs, hspoken⟩)

/-! ### Steps -/

/-- Everything that an operation can do to a registry. -/
inductive Step (r : Registry) : Registry → Prop
  /-- A name is mentioned. -/
  | resolve (name : String) : Step r (r.resolve name).2
  /-- A document says something about a symbol. -/
  | write (d : DocumentId) (i : SymbolId) {change : Symbol → Symbol}
      (speech : Symbol.IsSpeech d change) : Step r (r.write d i change)
  /-- A document is forgotten. -/
  | forget (d : DocumentId) : Step r (r.forget d)
  /-- Nothing happens: a statement was refused. -/
  | refuse : Step r r

theorem Step.setKind (r : Registry) (d : DocumentId) (i : SymbolId) (kind : Kind)
    (parent : Option SymbolId) : Step r (r.setKind d i kind parent).2 :=
  .write d i (Symbol.isSpeech_state d ⟨kind, parent⟩)

theorem Step.setKindIfUnset (r : Registry) (d : DocumentId) (i : SymbolId) (kind : Kind)
    (parent : Option SymbolId) : Step r (r.setKindIfUnset d i kind parent).2 := by
  unfold Registry.setKindIfUnset
  split
  · exact .setKind r d i kind parent
  · exact .refuse

theorem Operation.step_run (r : Registry) (o : Operation) : Step r (o.run r).2 := by
  cases o with
  | resolve name => exact .resolve name
  | setKind d i kind parent => exact .setKind r d i kind parent
  | setKindIfUnset d i kind parent => exact .setKindIfUnset r d i kind parent
  | addDefinition d i range => exact .write d i (Symbol.isSpeech_addDefinition d range)
  | addReference d i range => exact .write d i (Symbol.isSpeech_addReference d range)
  | forget d => exact .forget d

/-! ### Every step keeps the invariant -/

namespace WellFormed

theorem empty : Registry.empty.WellFormed where
  id_eq := by intro i s h; simp [Registry.empty, symbol?] at h
  lookup?_eq_some_iff := by intro name i; simp [Registry.empty, symbol?, lookup?]
  mem_idsIn_iff := by intro d i; simp [Registry.empty, symbol?, idsIn]
  names_nodup := List.nodup_nil
  documents := .empty
  symbol := by intro i s h; simp [Registry.empty, symbol?] at h

variable {r : Registry}

/-- Different symbols have different qualified names. -/
theorem qualifiedName_inj (h : r.WellFormed) {i j : SymbolId} {s t : Symbol}
    (hs : r.symbol? i = some s) (ht : r.symbol? j = some t) :
    s.qualifiedName = t.qualifiedName ↔ i = j := by
  constructor
  · intro heq
    have hi : r.lookup? t.qualifiedName = some i := h.lookup?_eq_some_iff.mpr ⟨s, hs, heq⟩
    have hj : r.lookup? t.qualifiedName = some j := h.lookup?_eq_some_iff.mpr ⟨t, ht, rfl⟩
    exact Option.some.inj (hi.symm.trans hj)
  · rintro rfl
    rw [Option.some.inj (hs.symm.trans ht)]

/-- The next place is free, so the index by name cannot lead there yet. -/
theorem lookup?_ne_size (h : r.WellFormed) (name : String) : r.lookup? name ≠ some ⟨r.size⟩ := by
  intro hlookup
  obtain ⟨s, hs, -⟩ := h.lookup?_eq_some_iff.mp hlookup
  rw [symbol?_size] at hs
  exact absurd hs (by simp)

/-- A new name and its placeholder lead to one another. -/
theorem lookup?_resolve_eq_some_iff (h : r.WellFormed) (name : String) {name' : String}
    {i : SymbolId} :
    (r.resolve name).2.lookup? name' = some i ↔
      ∃ s, (r.resolve name).2.symbol? i = some s ∧ s.qualifiedName = name' := by
  cases hn : r.lookup? name with
  | some j => rw [resolve_of_lookup? hn]; exact h.lookup?_eq_some_iff
  | none =>
    have hnew : (r.resolve name).1 = ⟨r.size⟩ := by rw [resolve_of_lookup?_eq_none hn]
    have hsymbol := symbol?_resolve r name i
    by_cases hi : i = ⟨r.size⟩
    · -- the new place belongs to the new name alone
      subst hi
      rw [if_pos ⟨hn, rfl⟩] at hsymbol
      rw [lookup?_resolve, hnew, hsymbol]
      have hlate := h.lookup?_ne_size name'
      by_cases hname : name = name' <;> simp [hname, hlate, Symbol.placeholder]
    · rw [if_neg fun hboth => hi hboth.2] at hsymbol
      rw [lookup?_resolve, hnew, hsymbol, ← h.lookup?_eq_some_iff]
      by_cases hname : name = name'
      · subst hname
        rw [if_pos rfl, hn]
        simp [Ne.symm hi]
      · rw [if_neg hname]

theorem resolve (h : r.WellFormed) (name : String) : (r.resolve name).2.WellFormed := by
  refine ⟨?_, h.lookup?_resolve_eq_some_iff name, ?_, ?_, ?_, ?_⟩
  · -- handles are places, the new one too
    intro i s hs
    rw [symbol?_resolve] at hs
    split at hs
    · rw [← Option.some.inj hs]; rfl
    · exact h.id_eq hs
  · -- no document speaks of a new symbol yet
    intro d i
    rw [idsIn_resolve, symbol?_resolve, h.mem_idsIn_iff]
    split
    · next hnew =>
      rw [hnew.2, symbol?_size]
      simp
    · rfl
  · -- a new name is added once
    cases hn : r.lookup? name with
    | some i => rw [resolve_of_lookup? hn]; exact h.names_nodup
    | none =>
      rw [resolve_of_lookup?_eq_none hn, Table.insert, Table.keys_upsert]
      exact nodup_addNew h.names_nodup name
  · rw [documents_resolve]
    exact h.documents
  · -- a placeholder has no entries that could repeat
    intro i s hs
    rw [symbol?_resolve] at hs
    split at hs
    · rw [← Option.some.inj hs]; exact Symbol.wellFormed_placeholder i name
    · exact h.symbol hs

/-- The index by document notes whoever speaks, and nobody else. -/
theorem mem_idsIn_write_iff (h : r.WellFormed) {d : DocumentId} {change : Symbol → Symbol}
    (speech : Symbol.IsSpeech d change) (i : SymbolId) {d' : DocumentId} {j : SymbolId} :
    j ∈ (r.write d i change).idsIn d' ↔
      ∃ s, (r.write d i change).symbol? j = some s ∧ s.SpokenOfBy d' := by
  rw [idsIn_write, symbol?_write]
  by_cases hij : i = j
  · subst hij
    rw [if_pos rfl]
    cases hs : r.symbol? i with
    | none =>
      -- a handle that was never given out: nothing is written
      have hi : ¬ i.index < r.size := Nat.not_lt.mpr (symbol?_eq_none_iff.mp hs)
      simp [hi, h.mem_idsIn_iff, hs]
    | some s =>
      have hi : i.index < r.size := symbol?_isSome_iff.mp (by rw [hs]; rfl)
      by_cases hd : d = d'
      · subst hd
        simp [hi, mem_addNew, speech.spokenOfBy]
      · simp [hd, h.mem_idsIn_iff, hs, speech.spokenOfBy_iff_of_ne hd]
  · rw [if_neg hij, ← h.mem_idsIn_iff]
    split
    · simp [mem_addNew, Ne.symm hij]
    · rfl

theorem write (h : r.WellFormed) {d : DocumentId} {change : Symbol → Symbol}
    (speech : Symbol.IsSpeech d change) (i : SymbolId) : (r.write d i change).WellFormed := by
  refine ⟨?_, ?_, h.mem_idsIn_write_iff speech i, ?_, ?_, ?_⟩
  · -- handles stay
    intro j s' hs'
    obtain ⟨s, hs, rfl | rfl⟩ := symbol?_of_symbol?_write hs'
    · rw [speech.id_eq]; exact h.id_eq hs
    · exact h.id_eq hs
  · -- names stay
    intro name j
    rw [lookup?_write, h.lookup?_eq_some_iff, symbol?_write]
    split
    · cases r.symbol? j with
      | none => simp
      | some s => simp [speech.qualifiedName_eq]
    · rfl
  · rw [names_write]
    exact h.names_nodup
  · -- a symbol that is there is listed once for the document
    unfold Registry.write
    split
    · exact h.documents.add d i
    · exact h.documents
  · intro j s' hs'
    obtain ⟨s, hs, rfl | rfl⟩ := symbol?_of_symbol?_write hs'
    · exact speech.wellFormed (h.symbol hs)
    · exact h.symbol hs

theorem forget (h : r.WellFormed) (d : DocumentId) : (r.forget d).WellFormed := by
  refine ⟨?_, ?_, ?_, h.names_nodup, h.documents.erase d, ?_⟩
  · intro i s' hs'
    rw [h.symbol?_forget, Option.map_eq_some_iff] at hs'
    obtain ⟨s, hs, rfl⟩ := hs'
    show s.id = i
    exact h.id_eq hs
  · -- names stay, as no symbol is ever taken out
    intro name i
    rw [lookup?_forget, h.lookup?_eq_some_iff, h.symbol?_forget]
    cases r.symbol? i with
    | none => simp
    | some s => simp [Symbol.forget]
  · -- the index loses the document, and the symbols lose what it said
    intro d' i
    rw [idsIn_forget, h.symbol?_forget]
    by_cases hd : d = d'
    · subst hd
      cases r.symbol? i with
      | none => simp
      | some s => simp [Symbol.spokenOfBy_forget]
    · rw [if_neg hd, h.mem_idsIn_iff]
      cases r.symbol? i with
      | none => simp
      | some s => simp [Symbol.spokenOfBy_forget_of_ne hd]
  · intro i s' hs'
    rw [h.symbol?_forget, Option.map_eq_some_iff] at hs'
    obtain ⟨s, hs, rfl⟩ := hs'
    exact (h.symbol hs).forget d

/-- One step keeps the invariant. -/
theorem step {r' : Registry} (h : r.WellFormed) (hstep : Step r r') : r'.WellFormed := by
  cases hstep with
  | resolve name => exact h.resolve name
  | write d i speech => exact h.write speech i
  | forget d => exact h.forget d
  | refuse => exact h

/-- A whole history keeps the invariant. -/
theorem replay (h : r.WellFormed) (os : List Operation) : (r.replay os).2.WellFormed := by
  induction os generalizing r with
  | nil => exact h
  | cons o os ih => exact ih (h.step (Operation.step_run r o))

end WellFormed

/-! ### What every later registry keeps -/

/-- What a later registry `r'` keeps of an earlier one `r`. -/
structure Keeps (r r' : Registry) : Prop where
  /-- A name keeps its handle. -/
  lookup? : ∀ {name : String} {i : SymbolId}, r.lookup? name = some i → r'.lookup? name = some i
  /-- A handle keeps its name. -/
  symbol? : ∀ {i : SymbolId} {s : Symbol}, r.symbol? i = some s →
    ∃ s', r'.symbol? i = some s' ∧ s'.id = s.id ∧ s'.qualifiedName = s.qualifiedName
  /-- A new name gets a handle that was not in use. -/
  fresh : ∀ {name : String} {i : SymbolId}, r.lookup? name = none → r'.lookup? name = some i →
    r.symbol? i = none

namespace Keeps

variable {r r' r'' : Registry}

theorem refl (r : Registry) : r.Keeps r where
  lookup? := id
  symbol? := fun {_ s} hs => ⟨s, hs, rfl, rfl⟩
  fresh := fun hnone hsome => absurd (hnone.symm.trans hsome) (by simp)

theorem trans (h : r.Keeps r') (h' : r'.Keeps r'') : r.Keeps r'' where
  lookup? := fun hn => h'.lookup? (h.lookup? hn)
  symbol? := by
    intro i s hs
    obtain ⟨s', hs', hid', hname'⟩ := h.symbol? hs
    obtain ⟨s'', hs'', hid'', hname''⟩ := h'.symbol? hs'
    exact ⟨s'', hs'', hid''.trans hid', hname''.trans hname'⟩
  fresh := by
    intro name i hnone hsome
    -- the name was given out on the first way or on the second
    cases hn : r'.lookup? name with
    | some j =>
      rw [h'.lookup? hn, Option.some.injEq] at hsome
      subst hsome
      exact h.fresh hnone hn
    | none =>
      have hfree := h'.fresh hn hsome
      cases hs : r.symbol? i with
      | none => rfl
      | some s =>
        obtain ⟨s', hs', -⟩ := h.symbol? hs
        rw [hs'] at hfree
        exact absurd hfree (by simp)

theorem resolve (r : Registry) (name : String) : r.Keeps (r.resolve name).2 := by
  cases hn : r.lookup? name with
  | some i => rw [resolve_of_lookup? hn]; exact .refl r
  | none =>
    -- a new name comes at a place that was free
    refine ⟨?_, ?_, ?_⟩
    · intro name' i hi
      rw [lookup?_resolve, if_neg ?_]
      · exact hi
      · rintro rfl
        exact absurd (hn.symm.trans hi) (by simp)
    · intro i s hs
      refine ⟨s, ?_, rfl, rfl⟩
      rw [symbol?_resolve, if_neg ?_]
      · exact hs
      · rintro ⟨-, rfl⟩
        rw [symbol?_size] at hs
        exact absurd hs (by simp)
    · intro name' i hnone hsome
      rw [lookup?_resolve, resolve_of_lookup?_eq_none hn] at hsome
      split at hsome
      · rw [← Option.some.inj hsome]
        exact symbol?_size r
      · exact absurd (hnone.symm.trans hsome) (by simp)

/-- A step that leaves the index by name alone, and no symbol without its handle
and its name. -/
theorem of_lookup?_eq (hlookup : ∀ name, r'.lookup? name = r.lookup? name)
    (hsymbol : ∀ {i : SymbolId} {s : Symbol}, r.symbol? i = some s →
      ∃ s', r'.symbol? i = some s' ∧ s'.id = s.id ∧ s'.qualifiedName = s.qualifiedName) :
    r.Keeps r' where
  lookup? := fun hn => (hlookup _).trans hn
  symbol? := hsymbol
  fresh := fun hnone hsome => by
    rw [hlookup, hnone] at hsome
    exact absurd hsome (by simp)

theorem write {d : DocumentId} {change : Symbol → Symbol} (speech : Symbol.IsSpeech d change)
    (r : Registry) (i : SymbolId) : r.Keeps (r.write d i change) := by
  refine of_lookup?_eq (lookup?_write r d i change) ?_
  intro j s hs
  rw [symbol?_write]
  by_cases hij : i = j
  · subst hij
    exact ⟨change s, by simp [hs], speech.id_eq s, speech.qualifiedName_eq s⟩
  · exact ⟨s, by rw [if_neg hij, hs], rfl, rfl⟩

theorem forget (r : Registry) (d : DocumentId) : r.Keeps (r.forget d) := by
  refine of_lookup?_eq (lookup?_forget r d) ?_
  intro i s hs
  rw [symbol?_forget, hs]
  refine ⟨if s.id ∈ r.idsIn d then s.forget d else s, rfl, ?_, ?_⟩ <;> split <;> rfl

/-- One step takes no handle away and gives none out twice. -/
theorem step (hstep : Step r r') : r.Keeps r' := by
  cases hstep with
  | resolve name => exact .resolve r name
  | write d i speech => exact .write speech r i
  | forget d => exact .forget r d
  | refuse => exact .refl r

/-- Neither does a whole history. -/
theorem replay (r : Registry) (os : List Operation) : r.Keeps (r.replay os).2 := by
  induction os generalizing r with
  | nil => exact .refl r
  | cons o os ih => exact (Keeps.step (Operation.step_run r o)).trans (ih _)

end Keeps

/-! ### Histories -/

/-- **The invariant holds after every history of the registry.**  Names and handles
are in bijection: every place in use belongs to exactly one name.  And whatever
happens afterwards, each name keeps its handle, each handle keeps its name, and a
new name gets a handle that was never in use. -/
theorem replay_empty_wellFormed (os : List Operation) :
    let r := (empty.replay os).2
    r.WellFormed ∧
      (∀ i : SymbolId, i.index < r.size → ∃ name, r.lookup? name = some i) ∧
      (∀ {name name' : String} {i : SymbolId},
        r.lookup? name = some i → r.lookup? name' = some i → name = name') ∧
      ∀ os' : List Operation, r.Keeps (r.replay os').2 := by
  intro r
  have h : r.WellFormed := WellFormed.empty.replay os
  refine ⟨h, ?_, ?_, fun os' => Keeps.replay r os'⟩
  · intro i hi
    obtain ⟨s, hs⟩ := Option.isSome_iff_exists.mp (symbol?_isSome_iff.mpr hi)
    exact ⟨s.qualifiedName, h.lookup?_eq_some_iff.mpr ⟨s, hs, rfl⟩⟩
  · intro name name' i hn hn'
    obtain ⟨s, hs, rfl⟩ := h.lookup?_eq_some_iff.mp hn
    obtain ⟨s', hs', rfl⟩ := h.lookup?_eq_some_iff.mp hn'
    rw [Option.some.inj (hs.symm.trans hs')]

end Registry

end GrammarIndex
