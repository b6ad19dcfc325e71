import GrammarIndex.Proofs.Analysis.Reanalysis
import GrammarIndex.Proofs.Registry.Statements
import Mathlib.Data.List.Induction

/-!
# Parents that are there

A symbol knows its parent by a handle.  Nobody asks, when a parent is stated, whether the
handle has been given out yet; one that has not will belong to whatever name comes next.
Analyses only state handles of names that they have met, so that every parent is there as
long as single operations do not state others.

## Main definitions

* `Symbol.ParentsBelow`, `Registry.Rooted` — all parents of a symbol, and in a registry, are
  there.
* `Registry.Foresees` — a parent of a name that is not there.
* `Registry.Event.IsRooted` — an event that states no parent that is not there.

## Main results

* `Pass.rooted_perform`, `Registry.Rooted.run` — one move, and one event.
* `Registry.rooted_after`, `Registry.not_foresees_after` — **if no operation states a parent that
  is not there, all parents are there.**
-/

namespace GrammarIndex

/-! ### Parents of one symbol -/

namespace Symbol

/-- All parents that are stated of the symbol have handles below a bound. -/
def ParentsBelow (bound : Nat) (s : Symbol) : Prop :=
  ∀ e ∈ s.statements.entries, ∀ i ∈ e.2.parent, i.index < bound

end Symbol

/-! ### Parents in a registry -/

namespace Registry

/-- Somebody has stated a parent of the name by a handle that nobody has. -/
def Foresees (r : Registry) (n : String) (i : SymbolId) : Prop :=
  r.size ≤ i.index ∧
    ∃ s, r.symbolNamed? n = some s ∧ ∃ e ∈ s.statements.entries, e.2.parent = some i

/-- Whatever is stated to be a parent is a symbol of the registry. -/
def Rooted (r : Registry) : Prop :=
  ∀ i s, r.symbol? i = some s → s.ParentsBelow r.size

/-- A registry is rooted if every statement in it is. -/
theorem rooted_iff {r : Registry} :
    r.Rooted ↔ r.EveryStatement fun _ st => ∀ i ∈ st.parent, i.index < r.size := Iff.rfl

namespace Rooted

variable {r : Registry}

theorem not_foresees (h : r.Rooted) (n : String) (i : SymbolId) : ¬ r.Foresees n i := by
  rintro ⟨hi, s, hs, e, he, hparent⟩
  obtain ⟨j, -, hj⟩ := Option.bind_eq_some_iff.mp hs
  exact Nat.not_lt.mpr hi (h j s hj e he i hparent)

theorem empty : Registry.empty.Rooted := rooted_iff.mpr .empty

theorem resolve (h : r.Rooted) (name : String) : (r.resolve name).2.Rooted := by
  have hsize : r.size ≤ (r.resolve name).2.size := by
    unfold Registry.resolve
    split <;> simp [size]
  exact rooted_iff.mpr ((EveryStatement.resolve (rooted_iff.mp h) name).mono fun hst i hi =>
    Nat.lt_of_lt_of_le (hst i hi) hsize)

/-- A registry with as many symbols, in which every statement is as it should be. -/
theorem of_size_eq {r' : Registry} (hsize : r'.size = r.size)
    (h : r'.EveryStatement fun _ st => ∀ i ∈ st.parent, i.index < r.size) : r'.Rooted :=
  rooted_iff.mpr (h.mono fun hst i hi => hsize ▸ hst i hi)

theorem setKind (h : r.Rooted) (d : DocumentId) (i : SymbolId) (kind : Kind)
    {parent : Option SymbolId} (hparent : ∀ j ∈ parent, j.index < r.size) :
    (r.setKind d i kind parent).2.Rooted :=
  of_size_eq (r.size_write d i _) ((rooted_iff.mp h).setKind d i fun _ _ => hparent)

theorem setKindIfUnset (h : r.Rooted) (d : DocumentId) (i : SymbolId) (kind : Kind)
    {parent : Option SymbolId} (hparent : ∀ j ∈ parent, j.index < r.size) :
    (r.setKindIfUnset d i kind parent).2.Rooted := by
  unfold Registry.setKindIfUnset
  split
  · exact h.setKind d i kind hparent
  · exact h

theorem addDefinition (h : r.Rooted) (d : DocumentId) (i : SymbolId) (range : Range) :
    (r.addDefinition d i range).Rooted :=
  of_size_eq (r.size_write d i _) ((rooted_iff.mp h).addDefinition d i range)

theorem addReference (h : r.Rooted) (d : DocumentId) (i : SymbolId) (range : Range) :
    (r.addReference d i range).Rooted :=
  of_size_eq (r.size_write d i _) ((rooted_iff.mp h).addReference d i range)

theorem forget (h : r.Rooted) (d : DocumentId) : (r.forget d).Rooted :=
  of_size_eq (r.size_forget d) ((rooted_iff.mp h).forget d)

end Rooted

end Registry

/-! ### Parents that analyses state -/

/-- **A move states no parent that is not there**: the owner of a name has been mentioned, or
there is no parent. -/
theorem Pass.rooted_perform {p : Pass} (hwf : p.registry.WellFormed) (h : p.registry.Rooted)
    (m : Move) : (p.perform m).registry.Rooted := by
  -- the owner is known already, and so it comes before the place for the next symbol
  have howner : ∀ (name : String) (owner : Option String), ∀ i ∈ owner.bind p.owner?,
      i.index < (p.registry.resolve name).2.size := by
    intro name owner i hi
    obtain ⟨o, -, hlookup⟩ := Option.bind_eq_some_iff.mp hi
    obtain ⟨s, hs, -⟩ := hwf.lookup?_eq_some_iff.mp hlookup
    obtain ⟨s', hs', -⟩ := (Registry.Keeps.resolve p.registry name).symbol? hs
    exact Registry.symbol?_isSome_iff.mp (by rw [hs']; rfl)
  cases m with
  | state name kind owner => exact (h.resolve name).setKind _ _ kind (howner name owner)
  | suggest name kind owner => exact (h.resolve name).setKindIfUnset _ _ kind (howner name owner)
  | define name range => exact (h.resolve name).addDefinition _ _ range
  | refer name range => exact (h.resolve name).addReference _ _ range
  | note => exact h
  | rescope => exact h

namespace Registry

variable {r : Registry}

theorem Rooted.analyze (hwf : r.WellFormed) (h : r.Rooted) (source : String) (d : DocumentId)
    (text : String) (tree : Tree) : (GrammarIndex.analyze source r d text tree).2.Rooted := by
  have hplay : ∀ moves, ((analysisStart source r d text).play moves).registry.Rooted :=
    fun moves => (Pass.play_induction
      (motive := fun p => p.registry.WellFormed ∧ p.registry.Rooted)
      (fun p m hp => ⟨Pass.wellFormed_perform hp.1 m, Pass.rooted_perform hp.1 hp.2 m⟩)
      ⟨hwf.forget d, h.forget d⟩ moves).2
  rcases registry_analyze source r d text tree with heq | heq
  · rw [heq]
    exact hplay _
  · rw [heq]
    exact (hplay _).forget d

/-! ### Histories -/

/-- The operation states no parent that is not there. -/
def Operation.IsRooted (r : Registry) : Operation → Prop
  | .setKind _ _ _ parent => ∀ i ∈ parent, i.index < r.size
  | .setKindIfUnset _ _ _ parent => ∀ i ∈ parent, i.index < r.size
  | _ => True

/-- The event states no parent that is not there.  An analysis never does. -/
def Event.IsRooted (r : Registry) : Event → Prop
  | .operation o => o.IsRooted r
  | .analysis _ _ _ _ => True

theorem Rooted.operation (h : r.Rooted) {o : Operation} (ho : o.IsRooted r) :
    (o.run r).2.Rooted := by
  cases o with
  | resolve name => exact h.resolve name
  | setKind d i kind parent => exact h.setKind d i kind ho
  | setKindIfUnset d i kind parent => exact h.setKindIfUnset d i kind ho
  | addDefinition d i range => exact h.addDefinition d i range
  | addReference d i range => exact h.addReference d i range
  | forget d => exact h.forget d

theorem Rooted.run (hwf : r.WellFormed) (h : r.Rooted) {event : Event} (he : event.IsRooted r) :
    (event.run r).Rooted := by
  cases event with
  | operation o => exact h.operation he
  | analysis source d text parsed =>
    cases parsed with
    | ok tree => exact h.analyze hwf source d text tree
    | error e => exact h.forget d

theorem rooted_after {history : List Event}
    (h : ∀ before event later, history = before ++ event :: later → event.IsRooted (after before)) :
    (after history).Rooted := by
  induction history using List.reverseRecOn with
  | nil => exact .empty
  | append_singleton before event ih =>
    have hbefore : (after before).Rooted := ih fun earlier event' later heq =>
      h earlier event' (later ++ [event]) (by rw [heq]; simp)
    rw [after, List.foldl_append]
    exact hbefore.run (wellFormed_after before) (h before event [] rfl)

/-- **If no operation states a parent that is not there, no parent is foreseen.** -/
theorem not_foresees_after {history : List Event}
    (h : ∀ before event later, history = before ++ event :: later → event.IsRooted (after before))
    (n : String) (i : SymbolId) : ¬ (after history).Foresees n i :=
  (rooted_after h).not_foresees n i

end Registry

end GrammarIndex
