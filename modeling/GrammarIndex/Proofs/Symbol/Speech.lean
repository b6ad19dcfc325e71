import GrammarIndex.Proofs.Table
import GrammarIndex.Symbol.Basic

/-!
# What a document says about a symbol

A document speaks of a symbol when it has stated a kind for it, or defines it, or
references it.  Whatever a document says, it says about its own part of the symbol
only: once the document is forgotten, the symbol is what it was without that word.

## Main definitions

* `Symbol.SpokenOfBy` — the document has said something about the symbol.
* `Symbol.WellFormed` — the three tables of a symbol are maps, and the ranges in
  them are nonempty sets.
* `Symbol.IsSpeech` — a change by which one document says something.

## Main results

* `Symbol.forget_of_not_spokenOfBy` — a document that never spoke of the symbol is
  forgotten without a change.
* `Symbol.isSpeech_state`, `Symbol.isSpeech_addDefinition`,
  `Symbol.isSpeech_addReference` — the three things that a document can say.
* `Symbol.forget_state_of_ne`, `Symbol.forget_addDefinition_of_ne`,
  `Symbol.forget_addReference_of_ne` — what one document says, it says the same whether
  another is remembered or not.
-/

namespace GrammarIndex

namespace Symbol

/-! ### Who speaks of a symbol -/

/-- The document has said something about the symbol: it has stated a kind, or it
defines the symbol, or it references it. -/
def SpokenOfBy (s : Symbol) (d : DocumentId) : Prop :=
  s.statements.contains d = true ∨ s.definitions.contains d = true ∨
    s.references.contains d = true

/-- Nobody speaks of a placeholder. -/
@[simp] theorem not_spokenOfBy_placeholder (i : SymbolId) (name : String) (d : DocumentId) :
    ¬ (placeholder i name).SpokenOfBy d := by
  simp [SpokenOfBy, placeholder]

theorem spokenOfBy_forget {s : Symbol} {d d' : DocumentId} :
    (s.forget d).SpokenOfBy d' ↔ d ≠ d' ∧ s.SpokenOfBy d' := by
  unfold SpokenOfBy forget
  simp only [Table.contains_erase, Bool.and_eq_true, Bool.not_eq_true', decide_eq_false_iff_not,
    ← and_or_left, ne_eq]

theorem spokenOfBy_forget_of_ne {s : Symbol} {d d' : DocumentId} (hd : d ≠ d') :
    (s.forget d).SpokenOfBy d' ↔ s.SpokenOfBy d' := by
  rw [spokenOfBy_forget]
  exact and_iff_right hd

/-- A document speaks of the symbols that have a range in it. -/
theorem spokenOfBy_of_mem {s : Symbol} {d : DocumentId} {range : Range}
    (hrange : range ∈ s.definitionsIn d ++ s.referencesIn d) : s.SpokenOfBy d := by
  have hlisted : ∀ t : Table DocumentId (List Range), range ∈ (t.get? d).getD [] →
      t.contains d = true := by
    intro t hmem
    cases hget : t.get? d with
    | none => exact absurd hmem (by simp [hget])
    | some ranges => rw [Table.contains, hget, Option.isSome_some]
  exact .inr ((List.mem_append.mp hrange).imp (hlisted s.definitions) (hlisted s.references))

@[simp] theorem forget_placeholder (i : SymbolId) (name : String) (d : DocumentId) :
    (placeholder i name).forget d = placeholder i name := rfl

@[simp] theorem forget_forget (s : Symbol) (d : DocumentId) :
    (s.forget d).forget d = s.forget d := by
  simp [forget]

/-- A document that never spoke of the symbol is forgotten without a change. -/
theorem forget_of_not_spokenOfBy {s : Symbol} {d : DocumentId} (h : ¬ s.SpokenOfBy d) :
    s.forget d = s := by
  simp only [SpokenOfBy, not_or, Bool.not_eq_true] at h
  obtain ⟨hs, hd, hr⟩ := h
  unfold forget
  rw [Table.erase_of_not_contains hs, Table.erase_of_not_contains hd,
    Table.erase_of_not_contains hr]

/-! ### Well-formed symbols -/

/-- The tables of the symbol are maps, and no set of ranges in them is empty. -/
structure WellFormed (s : Symbol) : Prop where
  /-- A document states at most one kind. -/
  statements_nodup : s.statements.keys.Nodup
  /-- The ranges of a document that defines the symbol are a nonempty set. -/
  definitions : s.definitions.SetValued
  /-- The ranges of a document that references the symbol are a nonempty set. -/
  references : s.references.SetValued

theorem wellFormed_placeholder (i : SymbolId) (name : String) :
    (placeholder i name).WellFormed where
  statements_nodup := List.nodup_nil
  definitions := .empty
  references := .empty

theorem WellFormed.forget {s : Symbol} (h : s.WellFormed) (d : DocumentId) :
    (s.forget d).WellFormed where
  statements_nodup := by
    change (s.statements.erase d).keys.Nodup
    rw [Table.keys_erase]
    exact h.statements_nodup.filter _
  definitions := h.definitions.erase d
  references := h.references.erase d

/-! ### Changes by one document -/

/-- A change to a symbol by which the document `d` says something, and which
touches nothing that another document has said. -/
structure IsSpeech (d : DocumentId) (change : Symbol → Symbol) : Prop where
  /-- Once the document is forgotten, nothing is left of the change. -/
  forget_eq : ∀ s : Symbol, (change s).forget d = s.forget d
  /-- After the change the document speaks of the symbol. -/
  spokenOfBy : ∀ s : Symbol, (change s).SpokenOfBy d
  /-- Tables stay maps of nonempty sets. -/
  wellFormed : ∀ {s : Symbol}, s.WellFormed → (change s).WellFormed

namespace IsSpeech

variable {d : DocumentId} {change : Symbol → Symbol}

theorem id_eq (h : IsSpeech d change) (s : Symbol) : (change s).id = s.id :=
  show ((change s).forget d).id = (s.forget d).id by rw [h.forget_eq]

theorem qualifiedName_eq (h : IsSpeech d change) (s : Symbol) :
    (change s).qualifiedName = s.qualifiedName :=
  show ((change s).forget d).qualifiedName = (s.forget d).qualifiedName by rw [h.forget_eq]

/-- No other document begins or ceases to speak of the symbol. -/
theorem spokenOfBy_iff_of_ne (h : IsSpeech d change) {d' : DocumentId} (hd : d ≠ d') (s : Symbol) :
    (change s).SpokenOfBy d' ↔ s.SpokenOfBy d' := by
  rw [← spokenOfBy_forget_of_ne hd, h.forget_eq s, spokenOfBy_forget_of_ne hd]

end IsSpeech

theorem isSpeech_state (d : DocumentId) (statement : Statement) :
    IsSpeech d (·.state d statement) where
  forget_eq := by
    intro s
    unfold state
    split
    · -- a second statement of one document changes nothing
      rfl
    · simp [forget, Table.erase_insert_self]
  spokenOfBy := by
    intro s
    refine Or.inl ?_
    unfold state
    split
    · assumption
    · simp [Table.contains_insert]
  wellFormed := by
    intro s hs
    unfold state
    split
    · exact hs
    · refine ⟨?_, hs.definitions, hs.references⟩
      change (s.statements.upsert d _).keys.Nodup
      rw [Table.keys_upsert]
      exact nodup_addNew hs.statements_nodup d

theorem isSpeech_addDefinition (d : DocumentId) (range : Range) :
    IsSpeech d (·.addDefinition d range) where
  forget_eq := fun s => by simp [forget, addDefinition, addRange, Table.erase_upsert_self]
  spokenOfBy := fun s => Or.inr (Or.inl (by simp [addDefinition, addRange, Table.contains_upsert]))
  wellFormed := fun hs => ⟨hs.statements_nodup, hs.definitions.add d range, hs.references⟩

theorem isSpeech_addReference (d : DocumentId) (range : Range) :
    IsSpeech d (·.addReference d range) where
  forget_eq := fun s => by simp [forget, addReference, addRange, Table.erase_upsert_self]
  spokenOfBy := fun s => Or.inr (Or.inr (by simp [addReference, addRange, Table.contains_upsert]))
  wellFormed := fun hs => ⟨hs.statements_nodup, hs.definitions, hs.references.add d range⟩

/-! ### Two documents -/

section

variable {d d' : DocumentId} (hd : d ≠ d') (s : Symbol)

include hd

theorem contains_statements_forget_of_ne :
    (s.forget d').statements.contains d = s.statements.contains d := by
  show (s.statements.erase d').contains d = _
  simp [Table.contains_erase, hd.symm]

/-- A document states the same kind whether another document is remembered or not. -/
theorem forget_state_of_ne (statement : Statement) :
    (s.state d statement).forget d' = (s.forget d').state d statement := by
  unfold state
  rw [contains_statements_forget_of_ne hd]
  split
  · rfl
  · simp only [forget, Table.erase_insert_of_ne hd]

theorem forget_addDefinition_of_ne (range : Range) :
    (s.addDefinition d range).forget d' = (s.forget d').addDefinition d range := by
  simp only [forget, addDefinition, addRange, Table.erase_upsert_of_ne hd]

theorem forget_addReference_of_ne (range : Range) :
    (s.addReference d range).forget d' = (s.forget d').addReference d range := by
  simp only [forget, addReference, addRange, Table.erase_upsert_of_ne hd]

end

theorem forget_comm (s : Symbol) (d d' : DocumentId) :
    (s.forget d).forget d' = (s.forget d').forget d := by
  simp only [forget, Table.erase_comm _ d d']

end Symbol

end GrammarIndex
