import GrammarIndex.Proofs.Registry.Standing
import Mathlib.Data.List.Induction

/-!
# Who decides what a symbol is

A symbol keeps no history: it has a table of statements, which is searched from its end,
and a table of definitions beside it, and both shrink when a document is forgotten.  What
comes out of the two tables is nevertheless a matter of the history alone.  The statement
of a document is the first one that it offered since it was last forgotten; documents that
define the symbol go before all others, however late the definition came; and of several
statements the one made last decides.

## Main definitions

* `Registry.Operation.offer?` — the statement that an operation offers to a symbol.
* `Registry.StatedAt`, `Registry.DefinedBy` — the statement of a document about a symbol,
  with the moment at which it was made, and who defines the symbol.
* `Registry.Decides` — the statement that decides after a history, if there is one.
* `Registry.Ledger` — the table of statements with the moments at which they were made.

## Main results

* `Registry.statedAt_concat_iff`, `Registry.definedBy_concat_iff` — how one more operation
  changes who has stated what, and who defines.
* `Registry.exists_ledger` — the tables of a symbol keep the history as far as it matters.
* `Registry.decides_symbol` — **kind and parent of a symbol are those of the statement that
  decides**, and no document changes them from outside as long as a document that defines
  the symbol has a statement.
-/

namespace GrammarIndex

namespace Registry

/-! ### What a history says of a symbol -/

/-- The statement that an operation offers to a symbol, with the document that offers it.
At a use it is offered only to a symbol without a kind, or with this very kind; which kind
that is, is again a matter of the history before. -/
def Operation.offer? (r : Registry) (i : SymbolId) : Operation → Option (DocumentId × Statement)
  | .setKind d j kind parent =>
    if j = i ∧ i.index < r.size then some (d, ⟨kind, parent⟩) else none
  | .setKindIfUnset d j kind parent =>
    if j = i ∧ i.index < r.size ∧ (r.kind? i).all (· = kind) then some (d, ⟨kind, parent⟩)
    else none
  | _ => none

/-- The registry before the operation at the moment `k` of a history. -/
def registryAt (os : List Operation) (k : Nat) : Registry := (empty.replay (os.take k)).2

/-- The statement that is offered to a symbol at a moment of a history. -/
def offerAt? (os : List Operation) (i : SymbolId) (k : Nat) : Option (DocumentId × Statement) :=
  os[k]?.bind (·.offer? (registryAt os k) i)

/-- The document has not been forgotten after the moment `k`. -/
def Remembered (os : List Operation) (d : DocumentId) (k : Nat) : Prop :=
  ∀ m, k < m → os[m]? ≠ some (.forget d)

/-- The statement of a document about a symbol is `st`, and was made at the moment `k`: it
is the first one that the document offered since it was last forgotten. -/
structure StatedAt (os : List Operation) (i : SymbolId) (d : DocumentId) (st : Statement)
    (k : Nat) : Prop where
  /-- The statement was offered. -/
  made : offerAt? os i k = some (d, st)
  /-- The document has not been forgotten since. -/
  remembered : Remembered os d k
  /-- It has been forgotten since it offered any earlier one. -/
  first : ∀ j, j < k → (offerAt? os i j).map (·.1) = some d → ¬ Remembered os d j

instance (os : List Operation) (d : DocumentId) (k : Nat) : Decidable (Remembered os d k) :=
  decidable_of_iff (∀ m, m < os.length → k < m → os[m]? ≠ some (.forget d))
    ⟨fun h m hm hforget => h m (List.getElem?_eq_some_iff.mp hforget).1 hm hforget,
      fun h m _ hm => h m hm⟩

instance (os : List Operation) (i : SymbolId) (d : DocumentId) (st : Statement) (k : Nat) :
    Decidable (StatedAt os i d st k) :=
  decidable_of_iff
    (offerAt? os i k = some (d, st) ∧ Remembered os d k ∧
      ∀ j, j < k → (offerAt? os i j).map (·.1) = some d → ¬ Remembered os d j)
    ⟨fun ⟨made, remembered, first⟩ => ⟨made, remembered, first⟩,
      fun ⟨made, remembered, first⟩ => ⟨made, remembered, first⟩⟩

/-- The document added a definition of the symbol since it was last forgotten. -/
def DefinedBy (os : List Operation) (i : SymbolId) (d : DocumentId) : Prop :=
  ∃ (k : Nat) (range : Range), os[k]? = some (.addDefinition d i range) ∧
    i.index < (registryAt os k).size ∧ Remembered os d k

/-- The statement that decides what a symbol is after a history, if there is one. -/
inductive Decides (os : List Operation) (i : SymbolId) : Option Statement → Prop
  /-- The latest statement by a document that defines the symbol. -/
  | definer {d : DocumentId} {st : Statement} {k : Nat} (stated : StatedAt os i d st k)
      (defined : DefinedBy os i d)
      (latest : ∀ {d' : DocumentId} {st' : Statement} {k' : Nat}, StatedAt os i d' st' k' →
        DefinedBy os i d' → k' ≤ k) : Decides os i (some st)
  /-- The latest statement of all, where no document that defines the symbol has one. -/
  | anyone {d : DocumentId} {st : Statement} {k : Nat} (stated : StatedAt os i d st k)
      (undefined : ∀ {d' : DocumentId} {st' : Statement} {k' : Nat}, StatedAt os i d' st' k' →
        ¬ DefinedBy os i d')
      (latest : ∀ {d' : DocumentId} {st' : Statement} {k' : Nat}, StatedAt os i d' st' k' →
        k' ≤ k) : Decides os i (some st)
  /-- There is no statement. -/
  | nobody (unstated : ∀ (d : DocumentId) (st : Statement) (k : Nat), ¬ StatedAt os i d st k) :
      Decides os i none

variable {os : List Operation} {i : SymbolId} {d : DocumentId} {st : Statement} {k : Nat}

/-- At one moment one statement is made. -/
theorem StatedAt.eq_of_moment_eq {d' : DocumentId} {st' : Statement} (h : StatedAt os i d st k)
    (h' : StatedAt os i d' st' k) : st = st' :=
  congrArg Prod.snd (Option.some.inj (h.made.symm.trans h'.made))

/-- Only one statement decides. -/
theorem Decides.unique {st? st?' : Option Statement} (h : Decides os i st?)
    (h' : Decides os i st?') : st? = st?' := by
  cases h with
  | definer stated defined latest =>
    cases h' with
    | definer stated' defined' latest' =>
      -- both are the latest, and so they were made at one moment
      have hmoment := Nat.le_antisymm (latest' stated defined) (latest stated' defined')
      rw [stated.eq_of_moment_eq (hmoment ▸ stated')]
    | anyone stated' undefined' latest' => exact absurd defined (undefined' stated)
    | nobody unstated' => exact absurd stated (unstated' _ _ _)
  | anyone stated undefined latest =>
    cases h' with
    | definer stated' defined' latest' => exact absurd defined' (undefined stated')
    | anyone stated' undefined' latest' =>
      have hmoment := Nat.le_antisymm (latest' stated) (latest stated')
      rw [stated.eq_of_moment_eq (hmoment ▸ stated')]
    | nobody unstated' => exact absurd stated (unstated' _ _ _)
  | nobody unstated =>
    cases h' with
    | definer stated' defined' latest' => exact absurd stated' (unstated _ _ _)
    | anyone stated' undefined' latest' => exact absurd stated' (unstated _ _ _)
    | nobody unstated' => rfl

/-! ### One more operation -/

section Concat

variable {o : Operation}

theorem registryAt_concat (h : k ≤ os.length) (o : Operation) :
    registryAt (os ++ [o]) k = registryAt os k := by
  rw [registryAt, registryAt, List.take_append_of_le_length h]

theorem registryAt_length (os : List Operation) :
    registryAt os os.length = (empty.replay os).2 := by
  rw [registryAt, List.take_length]

theorem lt_length_of_offerAt? {e : DocumentId × Statement} (h : offerAt? os i k = some e) :
    k < os.length := by
  obtain ⟨o, ho, -⟩ := Option.bind_eq_some_iff.mp h
  exact (List.getElem?_eq_some_iff.mp ho).1

theorem offerAt?_concat_of_lt (h : k < os.length) (o : Operation) :
    offerAt? (os ++ [o]) i k = offerAt? os i k := by
  rw [offerAt?, offerAt?, registryAt_concat (Nat.le_of_lt h), List.getElem?_append_left h]

theorem offerAt?_concat_length (os : List Operation) (i : SymbolId) (o : Operation) :
    offerAt? (os ++ [o]) i os.length = o.offer? (empty.replay os).2 i := by
  rw [offerAt?, registryAt_concat (Nat.le_refl _), registryAt_length, List.getElem?_concat_length]
  rfl

/-- A moment of the longer history is one of the shorter, or the last. -/
theorem lt_or_eq_of_offerAt?_concat {e : DocumentId × Statement}
    (h : offerAt? (os ++ [o]) i k = some e) : k < os.length ∨ k = os.length := by
  have hlt := lt_length_of_offerAt? h
  rw [List.length_append, List.length_singleton] at hlt
  omega

theorem remembered_concat_iff (h : k < os.length) :
    Remembered (os ++ [o]) d k ↔ Remembered os d k ∧ o ≠ .forget d := by
  constructor
  · intro hrem
    refine ⟨fun m hm hforget => hrem m hm ?_, fun ho => hrem os.length h ?_⟩
    · rw [List.getElem?_append_left (List.getElem?_eq_some_iff.mp hforget).1, hforget]
    · rw [List.getElem?_concat_length, ho]
  · rintro ⟨hrem, ho⟩ m hm hforget
    rcases Nat.lt_trichotomy m os.length with hlt | rfl | hgt
    · exact hrem m hm (by rwa [List.getElem?_append_left hlt] at hforget)
    · rw [List.getElem?_concat_length, Option.some.injEq] at hforget
      exact ho hforget
    · have hlate : (os ++ [o]).length ≤ m := by
        rw [List.length_append, List.length_singleton]
        omega
      rw [List.getElem?_eq_none hlate] at hforget
      exact absurd hforget (by simp)

/-- Nothing has happened after the last moment. -/
theorem remembered_concat_length (os : List Operation) (o : Operation) (d : DocumentId) :
    Remembered (os ++ [o]) d os.length := by
  intro m hm
  have hlate : (os ++ [o]).length ≤ m := by
    rw [List.length_append, List.length_singleton]
    omega
  simp [List.getElem?_eq_none hlate]

/-- A document that offered a statement, and was not forgotten since, has one. -/
theorem exists_statedAt (hoffer : offerAt? os i k = some (d, st)) (hrem : Remembered os d k) :
    ∃ st' k', StatedAt os i d st' k' := by
  induction k using Nat.strongRecOn generalizing st with
  | ind k ih =>
    by_cases hearlier : ∃ j st', j < k ∧ offerAt? os i j = some (d, st') ∧ Remembered os d j
    · obtain ⟨j, st', hj, hoffer', hrem'⟩ := hearlier
      exact ih j hj hoffer' hrem'
    · refine ⟨st, k, hoffer, hrem, fun j hj hoffer' hrem' => ?_⟩
      obtain ⟨⟨d', st'⟩, he, rfl⟩ := Option.map_eq_some_iff.mp hoffer'
      exact hearlier ⟨j, st', hj, he, hrem'⟩

/-- **Who has stated what after one more operation.**  All statements stay but those of a
document that was forgotten, and one is new if it is offered by a document that had none. -/
theorem statedAt_concat_iff :
    StatedAt (os ++ [o]) i d st k ↔
      (StatedAt os i d st k ∧ o ≠ .forget d) ∨
        (k = os.length ∧ o.offer? (empty.replay os).2 i = some (d, st) ∧
          ∀ st' k', ¬ StatedAt os i d st' k') := by
  constructor
  · -- the offer was made earlier, or it is that of the last operation
    intro h
    rcases lt_or_eq_of_offerAt?_concat h.made with hk | rfl
    · obtain ⟨hrem, ho⟩ := (remembered_concat_iff hk).mp h.remembered
      refine Or.inl ⟨⟨?_, hrem, fun j hj hoffer hrem' => ?_⟩, ho⟩
      · rw [← offerAt?_concat_of_lt hk o, h.made]
      · have hlt : j < os.length := Nat.lt_trans hj hk
        refine h.first j hj ?_ ((remembered_concat_iff hlt).mpr ⟨hrem', ho⟩)
        rw [offerAt?_concat_of_lt hlt, hoffer]
    · have hoffer := h.made
      rw [offerAt?_concat_length] at hoffer
      -- the document had stated nothing, or else it would have been the first to offer
      refine Or.inr ⟨rfl, hoffer, fun st' k' h' => ?_⟩
      have hlt := lt_length_of_offerAt? h'.made
      have ho : o ≠ .forget d := by
        rintro rfl
        exact absurd hoffer (by simp [Operation.offer?])
      refine h.first k' hlt ?_ ((remembered_concat_iff hlt).mpr ⟨h'.remembered, ho⟩)
      rw [offerAt?_concat_of_lt hlt, h'.made]
      rfl
  · rintro (⟨h, ho⟩ | ⟨rfl, hoffer, hnone⟩)
    · -- what comes after the offer does not make it less of a first one
      have hk := lt_length_of_offerAt? h.made
      refine ⟨?_, (remembered_concat_iff hk).mpr ⟨h.remembered, ho⟩, fun j hj hoffer hrem => ?_⟩
      · rw [offerAt?_concat_of_lt hk, h.made]
      · have hlt : j < os.length := Nat.lt_trans hj hk
        rw [offerAt?_concat_of_lt hlt] at hoffer
        exact h.first j hj hoffer ((remembered_concat_iff hlt).mp hrem).1
    · -- an earlier offer that is remembered would be a statement of the document
      refine ⟨?_, remembered_concat_length os o d, fun j hj hoffer' hrem => ?_⟩
      · rw [offerAt?_concat_length, hoffer]
      · rw [offerAt?_concat_of_lt hj] at hoffer'
        obtain ⟨⟨d', st'⟩, he, rfl⟩ := Option.map_eq_some_iff.mp hoffer'
        obtain ⟨st₀, k₀, h₀⟩ := exists_statedAt he ((remembered_concat_iff hj).mp hrem).1
        exact hnone st₀ k₀ h₀

/-- **Who defines after one more operation.** -/
theorem definedBy_concat_iff :
    DefinedBy (os ++ [o]) i d ↔
      (DefinedBy os i d ∧ o ≠ .forget d) ∨
        ((∃ range, o = .addDefinition d i range) ∧ i.index < (empty.replay os).2.size) := by
  constructor
  · rintro ⟨k, range, hk, hi, hrem⟩
    have hlt := (List.getElem?_eq_some_iff.mp hk).1
    rw [List.length_append, List.length_singleton] at hlt
    rcases Nat.lt_or_eq_of_le (Nat.le_of_lt_succ hlt) with hlt | rfl
    · -- the definition was made earlier
      obtain ⟨hrem, ho⟩ := (remembered_concat_iff hlt).mp hrem
      rw [registryAt_concat (Nat.le_of_lt hlt)] at hi
      rw [List.getElem?_append_left hlt] at hk
      exact Or.inl ⟨⟨k, range, hk, hi, hrem⟩, ho⟩
    · -- the last operation is the definition
      rw [registryAt_concat (Nat.le_refl _), registryAt_length] at hi
      rw [List.getElem?_concat_length, Option.some.injEq] at hk
      exact Or.inr ⟨⟨range, hk⟩, hi⟩
  · rintro (⟨⟨k, range, hk, hi, hrem⟩, ho⟩ | ⟨⟨range, rfl⟩, hi⟩)
    · have hlt := (List.getElem?_eq_some_iff.mp hk).1
      refine ⟨k, range, ?_, ?_, (remembered_concat_iff hlt).mpr ⟨hrem, ho⟩⟩
      · rw [List.getElem?_append_left hlt, hk]
      · rwa [registryAt_concat (Nat.le_of_lt hlt)]
    · refine ⟨os.length, range, List.getElem?_concat_length, ?_, remembered_concat_length _ _ _⟩
      rwa [registryAt_concat (Nat.le_refl _), registryAt_length]

end Concat

/-! ### Symbols that are not there yet -/

theorem Operation.lt_size_of_offer? {r : Registry} {o : Operation} {e : DocumentId × Statement}
    (h : o.offer? r i = some e) : i.index < r.size := by
  cases o with
  | setKind d j kind parent =>
    simp only [Operation.offer?, Option.ite_none_right_eq_some] at h
    exact h.1.2
  | setKindIfUnset d j kind parent =>
    simp only [Operation.offer?, Option.ite_none_right_eq_some] at h
    exact h.1.2.1
  | resolve | addDefinition | addReference | forget => exact absurd h (by simp [Operation.offer?])

/-- A symbol that is in use at some moment is in use at the end. -/
theorem lt_size_of_lt_size_registryAt (h : i.index < (registryAt os k).size) :
    i.index < (empty.replay os).2.size := by
  obtain ⟨s, hs⟩ := Option.isSome_iff_exists.mp (symbol?_isSome_iff.mpr h)
  obtain ⟨s', hs', -⟩ := (Keeps.replay (registryAt os k) (os.drop k)).symbol? hs
  rw [registryAt, ← registry_replay_append, List.take_append_drop] at hs'
  exact symbol?_isSome_iff.mp (by rw [hs']; rfl)

theorem StatedAt.lt_size (h : StatedAt os i d st k) : i.index < (empty.replay os).2.size := by
  obtain ⟨o, -, ho⟩ := Option.bind_eq_some_iff.mp h.made
  exact lt_size_of_lt_size_registryAt (Operation.lt_size_of_offer? ho)

theorem DefinedBy.lt_size (h : DefinedBy os i d) : i.index < (empty.replay os).2.size := by
  obtain ⟨k, -, -, hi, -⟩ := h
  exact lt_size_of_lt_size_registryAt hi

/-! ### Symbols after one more operation -/

/-- A symbol after an operation. -/
def Operation.change (r : Registry) (i : SymbolId) (o : Operation) (s : Symbol) : Symbol :=
  match o.offer? r i with
  | some (d, st) => s.state d st
  | none =>
    match o with
    | .addDefinition d j range => if j = i then s.addDefinition d range else s
    | .addReference d j range => if j = i then s.addReference d range else s
    | .forget d => s.forget d
    | _ => s

theorem WellFormed.symbol?_run {r : Registry} (h : r.WellFormed) {s : Symbol}
    (hs : r.symbol? i = some s) (o : Operation) :
    (o.run r).2.symbol? i = some (o.change r i s) := by
  have hi : i.index < r.size := symbol?_isSome_iff.mp (by rw [hs]; rfl)
  have hwrite : ∀ (d : DocumentId) (j : SymbolId) (change : Symbol → Symbol),
      (r.write d j change).symbol? i = some (if j = i then change s else s) := by
    intro d j change
    rw [symbol?_write, hs]
    split <;> rfl
  cases o with
  | resolve name =>
    -- a new symbol comes at a place that is free
    have hold : i ≠ ⟨r.size⟩ := fun hnew => absurd (congrArg SymbolId.index hnew) (Nat.ne_of_lt hi)
    show (r.resolve name).2.symbol? i = some s
    rw [symbol?_resolve, if_neg fun hnew => hold hnew.2, hs]
  | setKind d j kind parent =>
    show (r.write d j _).symbol? i = _
    rw [hwrite]
    by_cases hj : j = i <;> simp [Operation.change, Operation.offer?, hj, hi]
  | setKindIfUnset d j kind parent =>
    simp only [Operation.run, setKindIfUnset]
    by_cases hj : j = i
    · subst hj
      -- the suggestion is taken: the symbol has no kind, or has this one
      by_cases hkind : (r.kind? j).all (· = kind) = true
      · rw [if_pos hkind]
        show (r.write d j _).symbol? j = _
        rw [hwrite]
        simp [Operation.change, Operation.offer?, hi, hkind]
      · -- the suggestion is refused, and nothing is offered either
        rw [if_neg hkind]
        simp [Operation.change, Operation.offer?, hkind, hs]
    · have hchange : Operation.change r i (.setKindIfUnset d j kind parent) s = s := by
        simp [Operation.change, Operation.offer?, hj]
      rw [hchange]
      split
      · show (r.write d j _).symbol? i = _
        rw [hwrite, if_neg hj]
      · exact hs
  | addDefinition d j range => exact hwrite d j _
  | addReference d j range => exact hwrite d j _
  | forget d =>
    show (r.forget d).symbol? i = _
    rw [h.symbol?_forget, hs]
    rfl

/-- A symbol that was not there yet is one about which nobody says anything. -/
theorem eq_placeholder_of_symbol?_run {r : Registry} (h : r.WellFormed) {o : Operation}
    {s : Symbol} (hnone : r.symbol? i = none) (hs : (o.run r).2.symbol? i = some s) :
    ∃ name, s = .placeholder i name := by
  have hstep := o.step_run r
  generalize (o.run r).2 = r' at hstep hs
  cases hstep with
  | resolve name =>
    rw [symbol?_resolve] at hs
    split at hs
    · exact ⟨name, (Option.some.inj hs).symm⟩
    · exact absurd (hnone.symm.trans hs) (by simp)
  | write d j speech =>
    obtain ⟨s', hs', -⟩ := symbol?_of_symbol?_write hs
    exact absurd (hnone.symm.trans hs') (by simp)
  | forget d =>
    rw [h.symbol?_forget, hnone] at hs
    exact absurd hs (by simp)
  | refuse => exact absurd (hnone.symm.trans hs) (by simp)

/-! ### The ledger of a symbol -/

/-- The statements of a symbol with the moments at which they were made, the oldest first. -/
structure Ledger (os : List Operation) (i : SymbolId) (s : Symbol)
    (es : List (Nat × DocumentId × Statement)) : Prop where
  /-- The table of statements is the list without the moments. -/
  entries : s.statements.entries = es.map (·.2)
  /-- The moments increase. -/
  sorted : es.Pairwise fun e e' => e.1 < e'.1
  /-- The list has the statements of the history, and no others. -/
  mem_iff : ∀ {k : Nat} {d : DocumentId} {st : Statement},
    (k, d, st) ∈ es ↔ StatedAt os i d st k
  /-- The table of definitions tells who defines the symbol in the history. -/
  contains_iff : ∀ {d : DocumentId}, s.definitions.contains d = true ↔ DefinedBy os i d

namespace Ledger

variable {s : Symbol} {es : List (Nat × DocumentId × Statement)} {o : Operation}

theorem contains_statements_iff (h : Ledger os i s es) (d : DocumentId) :
    s.statements.contains d = true ↔ ∃ st k, StatedAt os i d st k := by
  rw [Table.contains_iff_mem_keys, Table.keys, h.entries, List.map_map, List.mem_map]
  constructor
  · rintro ⟨⟨k, d', st⟩, he, rfl⟩
    exact ⟨st, k, h.mem_iff.mp he⟩
  · rintro ⟨st, k, hst⟩
    exact ⟨(k, d, st), h.mem_iff.mpr hst, rfl⟩

/-- Nothing is known of a symbol that is mentioned for the first time. -/
theorem placeholder (hi : ¬ i.index < (empty.replay os).2.size) (o : Operation) (name : String) :
    Ledger (os ++ [o]) i (.placeholder i name) [] where
  entries := rfl
  sorted := .nil
  mem_iff := by
    intro k d st
    rw [statedAt_concat_iff]
    refine iff_of_false List.not_mem_nil ?_
    rintro (⟨h, -⟩ | ⟨-, ho, -⟩)
    · exact hi h.lt_size
    · exact hi (Operation.lt_size_of_offer? ho)
  contains_iff := by
    intro d
    rw [definedBy_concat_iff]
    refine iff_of_false (by simp [Symbol.placeholder]) ?_
    rintro (⟨h, -⟩ | ⟨-, hlt⟩)
    · exact hi h.lt_size
    · exact hi hlt

/-- A statement is offered.  It counts if the document had none. -/
theorem state (h : Ledger os i s es) (ho : o.offer? (empty.replay os).2 i = some (d, st)) :
    ∃ es', Ledger (os ++ [o]) i (s.state d st) es' := by
  -- whoever offers something forgets nothing
  have hforget : ∀ d', o ≠ .forget d' := by
    rintro d' rfl
    exact absurd ho (by simp [Operation.offer?])
  have hdefinitions : ∀ {d' : DocumentId},
      (s.state d st).definitions.contains d' = true ↔ DefinedBy (os ++ [o]) i d' := by
    intro d'
    rw [Symbol.definitions_state, h.contains_iff, definedBy_concat_iff]
    refine ⟨fun hd => Or.inl ⟨hd, hforget d'⟩, ?_⟩
    rintro (⟨hd, -⟩ | ⟨⟨range, rfl⟩, -⟩)
    · exact hd
    · exact absurd ho (by simp [Operation.offer?])
  cases hold : s.statements.contains d with
  | true =>
    -- the document has an earlier statement, and the offer changes nothing
    obtain ⟨st₀, k₀, h₀⟩ := (h.contains_statements_iff d).mp hold
    rw [Symbol.statements_state_of_contains hold] at hdefinitions ⊢
    refine ⟨es, h.entries, h.sorted, fun {k d' st'} => ?_, hdefinitions⟩
    rw [h.mem_iff, statedAt_concat_iff]
    refine ⟨fun hst => Or.inl ⟨hst, hforget d'⟩, ?_⟩
    rintro (⟨hst, -⟩ | ⟨-, ho', hnone⟩)
    · exact hst
    · -- the document is the one that had a statement
      obtain ⟨rfl, rfl⟩ := Prod.mk.inj (Option.some.inj (ho.symm.trans ho'))
      exact absurd h₀ (hnone st₀ k₀)
  | false =>
    -- the offer is the first statement of the document, and comes last in the ledger
    have hnone : ∀ st' k', ¬ StatedAt os i d st' k' := by
      intro st' k' hst
      rw [(h.contains_statements_iff d).mpr ⟨st', k', hst⟩] at hold
      exact absurd hold (by simp)
    refine ⟨es ++ [(os.length, d, st)], ?_, ?_, fun {k d' st'} => ?_, hdefinitions⟩
    · rw [(Symbol.statements_state_of_not_contains hold st).2, h.entries, List.map_append]
      rfl
    · rw [List.pairwise_append]
      refine ⟨h.sorted, List.pairwise_singleton _ _, fun e he e' he' => ?_⟩
      rw [List.mem_singleton.mp he']
      -- moments are places in the history, and the new one is its length
      exact lt_length_of_offerAt? (h.mem_iff.mp he).made
    · rw [List.mem_append, List.mem_singleton, h.mem_iff, statedAt_concat_iff]
      constructor
      · rintro (hst | hnew)
        · exact Or.inl ⟨hst, hforget d'⟩
        · cases hnew
          exact Or.inr ⟨rfl, ho, hnone⟩
      · rintro (⟨hst, -⟩ | ⟨rfl, ho', -⟩)
        · exact Or.inl hst
        · obtain ⟨rfl, rfl⟩ := Prod.mk.inj (Option.some.inj (ho.symm.trans ho'))
          exact Or.inr rfl

/-- A document is forgotten, and what it has said with it. -/
theorem forget (h : Ledger os i s es) (d : DocumentId) :
    Ledger (os ++ [.forget d]) i (s.forget d) (es.filter fun e => e.2.1 ≠ d) where
  entries := by
    show s.statements.entries.filter (fun e => e.1 ≠ d) = _
    rw [h.entries, List.filter_map]
    rfl
  sorted := h.sorted.filter _
  mem_iff := by
    intro k d' st
    have hnone : Operation.offer? (empty.replay os).2 i (.forget d) = none := rfl
    have hne : Operation.forget d ≠ .forget d' ↔ d' ≠ d := by
      rw [ne_eq, Operation.forget.injEq, eq_comm]
    rw [List.mem_filter, h.mem_iff, statedAt_concat_iff, hnone, hne]
    simp
  contains_iff := by
    intro d'
    show (s.definitions.erase d).contains d' = true ↔ _
    rw [Table.contains_erase, Bool.and_eq_true, h.contains_iff, definedBy_concat_iff]
    simp [and_comm]

/-- No statement is offered, and nobody is forgotten. -/
theorem silent (h : Ledger os i s es) (hnone : o.offer? (empty.replay os).2 i = none)
    (hforget : ∀ d, o ≠ .forget d) {s' : Symbol} (hstatements : s'.statements = s.statements)
    (hdefinitions : ∀ {d : DocumentId}, s'.definitions.contains d = true ↔
      s.definitions.contains d = true ∨ ∃ range, o = .addDefinition d i range)
    (hi : i.index < (empty.replay os).2.size) : Ledger (os ++ [o]) i s' es where
  entries := hstatements ▸ h.entries
  sorted := h.sorted
  mem_iff := by
    intro k d st
    rw [h.mem_iff, statedAt_concat_iff, hnone]
    simp [hforget]
  contains_iff := by
    intro d
    rw [hdefinitions, h.contains_iff, definedBy_concat_iff]
    simp [hforget, hi]

/-- **One more operation.** -/
theorem change (h : Ledger os i s es) (hi : i.index < (empty.replay os).2.size) (o : Operation) :
    ∃ es', Ledger (os ++ [o]) i (o.change (empty.replay os).2 i s) es' := by
  cases hoffer : o.offer? (empty.replay os).2 i with
  | some e =>
    simp only [Operation.change, hoffer]
    exact h.state hoffer
  | none =>
    simp only [Operation.change, hoffer]
    -- only definitions and forgetting change a symbol without an offer
    cases o with
    | resolve | setKind | setKindIfUnset =>
      exact ⟨es, h.silent hoffer (by simp) rfl (by simp) hi⟩
    | addDefinition d j range =>
      refine ⟨es, h.silent hoffer (by simp) ?_ ?_ hi⟩
      · by_cases hj : j = i <;> simp [hj, Symbol.addDefinition]
      · intro d'
        by_cases hj : j = i
        · simp [hj, Symbol.addDefinition, Symbol.addRange, Table.contains_upsert, or_comm]
        · simp [hj]
    | addReference d j range =>
      refine ⟨es, h.silent hoffer (by simp) ?_ ?_ hi⟩
      · by_cases hj : j = i <;> simp [hj, Symbol.addReference]
      · intro d'
        by_cases hj : j = i <;> simp [hj, Symbol.addReference]
    | forget d => exact ⟨_, h.forget d⟩

end Ledger

/-- **The tables of a symbol keep the history as far as it matters.** -/
theorem exists_ledger {s : Symbol} (hs : (empty.replay os).2.symbol? i = some s) :
    ∃ es, Ledger os i s es := by
  -- by induction on the history, from the operation that mentions the symbol first
  induction os using List.reverseRecOn generalizing s with
  | nil => exact absurd hs (by simp [replay, empty, symbol?])
  | append_singleton os o ih =>
    have hwf : (empty.replay os).2.WellFormed := WellFormed.empty.replay os
    rw [registry_replay_append] at hs
    change (o.run (empty.replay os).2).2.symbol? i = some s at hs
    cases hold : (empty.replay os).2.symbol? i with
    | some s₀ =>
      obtain ⟨es, hes⟩ := ih hold
      rw [hwf.symbol?_run hold, Option.some.injEq] at hs
      rw [← hs]
      exact hes.change (symbol?_isSome_iff.mp (by rw [hold]; rfl)) o
    -- the last operation mentions the symbol for the first time
    | none =>
      have hi : ¬ i.index < (empty.replay os).2.size :=
        Nat.not_lt.mpr (symbol?_eq_none_iff.mp hold)
      obtain ⟨name, rfl⟩ := eq_placeholder_of_symbol?_run hwf hold hs
      exact ⟨[], .placeholder hi o name⟩

/-! ### Who decides -/

/-- The newest entry of a kind is newer than every other one of that kind. -/
private theorem moment_le {es as bs : List (Nat × DocumentId × Statement)}
    {e e' : Nat × DocumentId × Statement} (hsorted : es.Pairwise fun e e' => e.1 < e'.1)
    (hes : es.reverse = as ++ e :: bs) (he' : e' ∈ es) (has : e' ∉ as) : e'.1 ≤ e.1 := by
  have hnewest : (as ++ e :: bs).Pairwise fun e e' => e'.1 < e.1 := by
    rw [← hes, List.pairwise_reverse]
    exact hsorted
  have hmem : e' ∈ as ++ e :: bs := by rw [← hes, List.mem_reverse]; exact he'
  rcases List.mem_append.mp hmem with hmem | hmem
  · exact absurd hmem has
  · rcases List.mem_cons.mp hmem with rfl | hmem
    · exact Nat.le_refl _
    · have hbs := (List.pairwise_append.mp hnewest).2.1
      exact Nat.le_of_lt ((List.pairwise_cons.mp hbs).1 e' hmem)

/-- The search in the tables finds the statement that decides. -/
theorem Ledger.decides {s : Symbol} {es : List (Nat × DocumentId × Statement)}
    (h : Ledger os i s es) : Decides os i s.effective? := by
  -- the entries are searched from the youngest to the oldest
  have hreverse : s.statements.entries.reverse = es.reverse.map (·.2) := by
    rw [h.entries, List.map_reverse]
  rw [Symbol.effective?_eq, hreverse, List.find?_map]
  cases hfind : es.reverse.find? ((fun e => s.definitions.contains e.1) ∘ fun e => e.2) with
  | some e =>
    obtain ⟨k, d, st⟩ := e
    obtain ⟨hdefined, as, bs, hes, has⟩ := List.find?_eq_some_iff_append.mp hfind
    have hmem : (k, d, st) ∈ es := by rw [← List.mem_reverse, hes]; simp
    refine .definer (h.mem_iff.mp hmem) (h.contains_iff.mp hdefined) ?_
    intro d' st' k' hst' hd'
    -- any later entry was passed over, and so its document defines nothing
    refine moment_le h.sorted hes (h.mem_iff.mpr hst') fun hmem' => ?_
    have hundefined := has _ hmem'
    simp [h.contains_iff.mpr hd'] at hundefined
  | none =>
    have hundefined : ∀ {d' : DocumentId} {st' : Statement} {k' : Nat}, StatedAt os i d' st' k' →
        ¬ DefinedBy os i d' := by
      intro d' st' k' hst' hd'
      have hnot := List.find?_eq_none.mp hfind _ (List.mem_reverse.mpr (h.mem_iff.mpr hst'))
      simp [h.contains_iff.mpr hd'] at hnot
    -- no document defines the symbol, and the youngest entry decides if there is one
    cases hes : es.reverse with
    | nil =>
      refine .nobody fun d st k hst => ?_
      have hmem := List.mem_reverse.mpr (h.mem_iff.mpr hst)
      rw [hes] at hmem
      exact absurd hmem List.not_mem_nil
    | cons e bs =>
      obtain ⟨k, d, st⟩ := e
      have hmem : (k, d, st) ∈ es := by rw [← List.mem_reverse, hes]; exact List.mem_cons_self
      refine .anyone (h.mem_iff.mp hmem) hundefined fun {d' st' k'} hst' => ?_
      have hfirst : es.reverse = [] ++ (k, d, st) :: bs := hes
      exact moment_le h.sorted hfirst (h.mem_iff.mpr hst') List.not_mem_nil

theorem Operation.document?_of_offer? {r : Registry} {o : Operation}
    (h : o.offer? r i = some (d, st)) : o.document? = some d := by
  cases o with
  | setKind d' j kind parent =>
    simp only [Operation.offer?, Option.ite_none_right_eq_some] at h
    exact congrArg (some ∘ Prod.fst) (Option.some.inj h.2)
  | setKindIfUnset d' j kind parent =>
    simp only [Operation.offer?, Option.ite_none_right_eq_some] at h
    exact congrArg (some ∘ Prod.fst) (Option.some.inj h.2)
  | resolve | addDefinition | addReference | forget => exact absurd h (by simp [Operation.offer?])

/-- As long as a document that defines the symbol has a statement, the statement that decides
is not changed by documents that do not define it. -/
theorem Decides.concat {st? : Option Statement} (h : Decides os i st?) {o : Operation}
    (hd : o.document? = some d) (hundefined : ¬ DefinedBy os i d)
    (hadd : ∀ range, o ≠ .addDefinition d i range)
    (hdefiner : ∃ d' st' k', StatedAt os i d' st' k' ∧ DefinedBy os i d') :
    Decides (os ++ [o]) i st? := by
  -- the document of the operation defines nothing, before and after
  have hdefined : ∀ {d' : DocumentId}, DefinedBy (os ++ [o]) i d' ↔ DefinedBy os i d' := by
    intro d'
    rw [definedBy_concat_iff]
    constructor
    · rintro (⟨h', -⟩ | ⟨⟨range, rfl⟩, -⟩)
      · exact h'
      · obtain rfl : d' = d := Option.some.inj hd
        exact absurd rfl (hadd range)
    · intro h'
      refine Or.inl ⟨h', ?_⟩
      rintro rfl
      obtain rfl : d' = d := Option.some.inj hd
      exact hundefined h'
  -- a document that defines the symbol is another one, and its statements stay
  have hstated : ∀ {d' : DocumentId} {st' : Statement} {k' : Nat}, DefinedBy os i d' →
      (StatedAt (os ++ [o]) i d' st' k' ↔ StatedAt os i d' st' k') := by
    intro d' st' k' h'
    have hne : d' ≠ d := by
      rintro rfl
      exact hundefined h'
    rw [statedAt_concat_iff]
    constructor
    · rintro (⟨hst, -⟩ | ⟨-, ho, -⟩)
      · exact hst
      · exact absurd (Option.some.inj ((Operation.document?_of_offer? ho).symm.trans hd)) hne
    · intro hst
      refine Or.inl ⟨hst, ?_⟩
      rintro rfl
      exact hne (Option.some.inj hd)
  obtain ⟨d₀, st₀, k₀, hstated₀, hdefined₀⟩ := hdefiner
  -- there is a definer, and so the other two ways of deciding are out
  cases h with
  | definer stated defined latest =>
    refine .definer ((hstated defined).mpr stated) (hdefined.mpr defined) ?_
    intro d' st' k' hst' hd'
    have hold := hdefined.mp hd'
    exact latest ((hstated hold).mp hst') hold
  | anyone stated undefined latest => exact absurd hdefined₀ (undefined hstated₀)
  | nobody unstated => exact absurd hstated₀ (unstated _ _ _)

/-- **Kind and parent of a symbol are those of the statement that decides.**  Take any
history from the empty registry and any symbol after it.  There is exactly one answer to the
question which statement decides, and it gives the symbol its kind and its parent, if it has
any.  And while some document that defines the symbol has a statement, an operation of a
document that does not define it changes neither, unless it makes the document define it. -/
theorem decides_symbol {os : List Operation} {i : SymbolId} {s : Symbol}
    (hs : (empty.replay os).2.symbol? i = some s) :
    (∃ st?, Decides os i st? ∧ (∀ st?', Decides os i st?' → st?' = st?) ∧
        s.kind? = st?.map (·.kind) ∧ s.parent? = st?.bind (·.parent)) ∧
      ∀ {o : Operation} {d : DocumentId}, o.document? = some d → ¬ DefinedBy os i d →
        (∀ range, o ≠ .addDefinition d i range) →
        (∃ d' st k, StatedAt os i d' st k ∧ DefinedBy os i d') →
        ∃ s', (empty.replay (os ++ [o])).2.symbol? i = some s' ∧ s'.kind? = s.kind? ∧
          s'.parent? = s.parent? := by
  obtain ⟨es, hes⟩ := exists_ledger hs
  have hdecides : Decides os i s.effective? := hes.decides
  refine ⟨⟨s.effective?, hdecides, fun st?' h' => h'.unique hdecides, rfl, rfl⟩, ?_⟩
  intro o d hd hundefined hadd hdefiner
  have hwf : (empty.replay os).2.WellFormed := WellFormed.empty.replay os
  have hs' : (empty.replay (os ++ [o])).2.symbol? i =
      some (o.change (empty.replay os).2 i s) := by
    rw [registry_replay_append]
    exact hwf.symbol?_run hs o
  -- the same statement decides before and after the operation
  obtain ⟨es', hes'⟩ := exists_ledger hs'
  have heffective := hes'.decides.unique (hdecides.concat hd hundefined hadd hdefiner)
  refine ⟨_, hs', ?_, ?_⟩
  · rw [Symbol.kind?, heffective, Symbol.kind?]
  · rw [Symbol.parent?, heffective, Symbol.parent?]

/-- A document defines a symbol before it states a kind, between two others.  One of them uses
the symbol with that kind, and the other is forgotten and states yet another kind. -/
def definedEarly : List Operation :=
  [.resolve "A", .setKind ⟨0⟩ ⟨0⟩ .grammar none, .addDefinition ⟨1⟩ ⟨0⟩ ⟨⟨0, 4⟩, ⟨0, 5⟩⟩,
    .setKind ⟨1⟩ ⟨0⟩ .terminal (some ⟨0⟩), .setKindIfUnset ⟨2⟩ ⟨0⟩ .terminal none,
    .forget ⟨0⟩, .setKind ⟨0⟩ ⟨0⟩ .context none, .setKindIfUnset ⟨3⟩ ⟨0⟩ .context none]

/-- The first of the others is forgotten once more. -/
theorem decides_symbol_definedEarly :
    ∃ s, (empty.replay definedEarly).2.symbol? ⟨0⟩ = some s ∧
      s.kind? = some .terminal ∧
      (∃ st?, Decides definedEarly ⟨0⟩ st? ∧
        (∀ st?', Decides definedEarly ⟨0⟩ st?' → st?' = st?) ∧
          s.kind? = st?.map (·.kind) ∧ s.parent? = st?.bind (·.parent)) ∧
      ∃ s', (empty.replay (definedEarly ++ [.forget ⟨0⟩])).2.symbol? ⟨0⟩ = some s' ∧
        s'.kind? = s.kind? ∧ s'.parent? = s.parent? := by
  have hkind : ((empty.replay definedEarly).2.symbol? ⟨0⟩).bind (·.kind?) = some .terminal := by
    decide
  obtain ⟨s, hs, hterminal⟩ := Option.bind_eq_some_iff.mp hkind
  have hundefined : ¬ DefinedBy definedEarly ⟨0⟩ ⟨0⟩ := by
    rintro ⟨k, range, hk, -⟩
    have hmem := List.mem_of_getElem? hk
    simp [definedEarly] at hmem
  have hstated : StatedAt definedEarly ⟨0⟩ ⟨1⟩ ⟨.terminal, some ⟨0⟩⟩ 3 := by decide
  have hdefined : DefinedBy definedEarly ⟨0⟩ ⟨1⟩ :=
    ⟨2, ⟨⟨0, 4⟩, ⟨0, 5⟩⟩, rfl, by decide, by decide⟩
  obtain ⟨hdecides, hkeeps⟩ := decides_symbol hs
  refine ⟨s, hs, hterminal, hdecides, ?_⟩
  exact hkeeps rfl hundefined (by simp) ⟨⟨1⟩, _, 3, hstated, hdefined⟩

end Registry

end GrammarIndex
