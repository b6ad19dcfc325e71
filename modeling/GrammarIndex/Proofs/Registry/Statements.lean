import GrammarIndex.Proofs.Registry.Standing

/-!
# Whatever is stated

Kind and parent of a symbol come from statements that documents have made about it.  A law
about statements that knows nothing of documents or of their order holds in a registry as
soon as it holds of every single statement when it is made.

## Main definitions

* `Registry.EveryStatement` — every statement of a registry, with the name it is about,
  satisfies a law.

## Main results

* `Registry.EveryStatement.setKind`, `.setKindIfUnset` — a statement that is made must satisfy
  the law.
* `Registry.EveryStatement.resolve`, `.addDefinition`, `.addReference`, `.forget` — nothing else
  makes a statement.
* `Registry.EveryStatement.of_effective?` — the law holds of the statement that decides.
-/

namespace GrammarIndex

namespace Registry

/-- Every statement about a symbol, with the name of the symbol, satisfies the law. -/
def EveryStatement (r : Registry) (law : String → Statement → Prop) : Prop :=
  ∀ i s, r.symbol? i = some s → ∀ e ∈ s.statements.entries, law s.qualifiedName e.2

namespace EveryStatement

variable {r : Registry} {law law' : String → Statement → Prop}

theorem mono (h : r.EveryStatement law) (hlaw : ∀ {n st}, law n st → law' n st) :
    r.EveryStatement law' :=
  fun i s hs e he => hlaw (h i s hs e he)

theorem empty : Registry.empty.EveryStatement law :=
  fun _ _ hs => absurd hs (by simp [Registry.empty, symbol?])

theorem resolve (h : r.EveryStatement law) (name : String) :
    (r.resolve name).2.EveryStatement law := by
  intro i s hs
  rw [symbol?_resolve] at hs
  split at hs
  · rw [← Option.some.inj hs]
    exact fun e he => absurd he List.not_mem_nil
  · exact h i s hs

/-- A change of one symbol that makes no statement but lawful ones. -/
theorem write (h : r.EveryStatement law) (d : DocumentId) (i : SymbolId)
    {change : Symbol → Symbol}
    (hchange : ∀ s, r.symbol? i = some s → ∀ e ∈ (change s).statements.entries,
      law (change s).qualifiedName e.2) :
    (r.write d i change).EveryStatement law := by
  intro j s' hs'
  rw [symbol?_write] at hs'
  split at hs'
  · next hij =>
    subst hij
    obtain ⟨s, hs, rfl⟩ := Option.map_eq_some_iff.mp hs'
    exact hchange s hs
  · exact h j s' hs'

theorem setKind (h : r.EveryStatement law) (d : DocumentId) (i : SymbolId) {kind : Kind}
    {parent : Option SymbolId}
    (hlaw : ∀ s, r.symbol? i = some s → law s.qualifiedName ⟨kind, parent⟩) :
    (r.setKind d i kind parent).2.EveryStatement law := by
  refine h.write d i fun s hs e he => ?_
  rw [Symbol.qualifiedName_state]
  cases hold : s.statements.contains d with
  | true =>
    rw [Symbol.statements_state_of_contains hold] at he
    exact h i s hs e he
  | false =>
    rw [(Symbol.statements_state_of_not_contains hold ⟨kind, parent⟩).2] at he
    rcases List.mem_append.mp he with he | he
    · exact h i s hs e he
    · rw [List.mem_singleton.mp he]
      exact hlaw s hs

theorem setKindIfUnset (h : r.EveryStatement law) (d : DocumentId) (i : SymbolId) {kind : Kind}
    {parent : Option SymbolId}
    (hlaw : ∀ s, r.symbol? i = some s → law s.qualifiedName ⟨kind, parent⟩) :
    (r.setKindIfUnset d i kind parent).2.EveryStatement law := by
  unfold Registry.setKindIfUnset
  split
  · exact h.setKind d i hlaw
  · exact h

theorem addDefinition (h : r.EveryStatement law) (d : DocumentId) (i : SymbolId)
    (range : Range) : (r.addDefinition d i range).EveryStatement law :=
  h.write d i fun s hs => h i s hs

theorem addReference (h : r.EveryStatement law) (d : DocumentId) (i : SymbolId)
    (range : Range) : (r.addReference d i range).EveryStatement law :=
  h.write d i fun s hs => h i s hs

theorem forget (h : r.EveryStatement law) (d : DocumentId) :
    (r.forget d).EveryStatement law := by
  intro i s' hs' e he
  rw [symbol?_forget] at hs'
  obtain ⟨s, hs, rfl⟩ := Option.map_eq_some_iff.mp hs'
  split at he
  · next hin =>
    rw [if_pos hin]
    exact h i s hs e (List.mem_filter.mp he).1
  · next hin =>
    rw [if_neg hin]
    exact h i s hs e he

/-- The statement that decides is one of those that were made. -/
theorem of_effective? (h : r.EveryStatement law) {i : SymbolId} {s : Symbol}
    (hs : r.symbol? i = some s) {st : Statement} (hst : s.effective? = some st) :
    law s.qualifiedName st := by
  rw [Symbol.effective?] at hst
  obtain ⟨e, he, rfl⟩ := Option.map_eq_some_iff.mp hst
  refine h i s hs e ?_
  rcases Option.or_eq_some_iff.mp he with hfound | ⟨-, hlatest⟩
  · exact List.mem_reverse.mp (List.mem_of_find?_eq_some hfound)
  · exact List.mem_reverse.mp (List.mem_of_mem_head? hlatest)

end EveryStatement

end Registry

end GrammarIndex
