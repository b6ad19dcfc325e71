import GrammarIndex.Analysis.History
import GrammarIndex.Proofs.Analysis.Footprint

/-!
# Analysing a document again

An analysis forgets what the document said before, so that the second of two equal
analyses starts where the first one did, but for the placeholders that the first has
left.  A pass takes no notice of those, and nothing distinguishes the two.

## Main results

* `Registry.WellFormed.analyze`, `Registry.wellFormed_after` — analyses keep the
  invariant of the registry, and so does every history.
* `Registry.WellFormed.forget_analyze` — the document forgotten, an analysis leaves
  its placeholders only.
* `analyze_twice` — **analysing a document twice is analysing it once**: the answer
  and the registry are the same.
-/

namespace GrammarIndex

/-! ### The pass of an analysis -/

/-- The pass of an analysis at its beginning. -/
def analysisStart (source : String) (r : Registry) (d : DocumentId) (text : String) : Pass :=
  .start (r.forget d) d text source

/-- The names that an analysis mentions, in order, as far as it comes. -/
def analysisNames (source : String) (r : Registry) (d : DocumentId) (text : String)
    (tree : Tree) : List String :=
  Move.namesOfAll ((analysisStart source r d text).walkMoves tree.occurrences)

/-- An analysis is the walk of its pass; what a stopped walk has said is forgotten. -/
theorem analyze_eq (source : String) (r : Registry) (d : DocumentId) (text : String)
    (tree : Tree) :
    analyze source r d text tree =
      match (analysisStart source r d text).walk tree.occurrences with
      | .ok p => (.ok p.result, p.registry)
      | .error stopped => (.error stopped.fault, stopped.reached.abandon) := rfl

/-- An analysis that succeeds is the end of its walk. -/
theorem exists_walk_of_analyze {source text : String} {r₀ r : Registry} {d : DocumentId}
    {tree : Tree} {a : Analysis} (h : analyze source r₀ d text tree = (.ok a, r)) :
    ∃ p, (analysisStart source r₀ d text).walk tree.occurrences = .ok p ∧ p.result = a ∧
      p.registry = r := by
  rw [analyze_eq] at h
  cases hwalk : (analysisStart source r₀ d text).walk tree.occurrences with
  | error stopped =>
    rw [hwalk] at h
    exact absurd h (by simp)
  | ok p =>
    rw [hwalk] at h
    exact ⟨p, rfl, Except.ok.inj (congrArg Prod.fst h), congrArg Prod.snd h⟩

/-- The registry that an analysis leaves is that of its pass, or that with the
document forgotten. -/
theorem registry_analyze (source : String) (r : Registry) (d : DocumentId) (text : String)
    (tree : Tree) :
    let p := analysisStart source r d text
    let moves := p.walkMoves tree.occurrences
    (analyze source r d text tree).2 = (p.play moves).registry ∨
      (analyze source r d text tree).2 = (p.play moves).registry.forget d := by
  intro p moves
  have hreached : Pass.reached (p.walk tree.occurrences) = p.play moves :=
    Pass.reached_walk p tree.occurrences
  rw [analyze_eq]
  cases hwalk : p.walk tree.occurrences with
  | ok q =>
    rw [hwalk] at hreached
    exact Or.inl (congrArg Pass.registry hreached)
  -- the pass was stopped on its way, and everything the document said is taken back
  | error stopped =>
    rw [hwalk] at hreached
    have hq : stopped.reached = p.play moves := hreached
    have hdocument : stopped.reached.document = d := by rw [hq, Pass.document_play]; rfl
    refine Or.inr ?_
    rw [← hq, ← hdocument]
    rfl

namespace Registry

/-- An analysis keeps the invariant of the registry. -/
theorem WellFormed.analyze {r : Registry} (h : r.WellFormed) (source : String) (d : DocumentId)
    (text : String) (tree : Tree) : (analyze source r d text tree).2.WellFormed := by
  have hplay : ∀ moves, ((analysisStart source r d text).play moves).registry.WellFormed :=
    Pass.wellFormed_play (h.forget d)
  rcases registry_analyze source r d text tree with heq | heq
  · rw [heq]
    exact hplay _
  · rw [heq]
    exact (hplay _).forget d

theorem WellFormed.analyzeParsed {r : Registry} (h : r.WellFormed) (source : String)
    (d : DocumentId) (text : String) (parsed : Except ParseError Tree) :
    (analyzeParsed source r d text parsed).2.WellFormed := by
  cases parsed with
  | ok tree => exact h.analyze source d text tree
  | error e => exact h.forget d

/-- **The invariant holds after every history.** -/
theorem wellFormed_after (history : List Event) : (after history).WellFormed := by
  have hfold : ∀ {r : Registry}, r.WellFormed → (history.foldl Event.run r).WellFormed := by
    induction history with
    | nil => exact id
    | cons event history ih =>
      intro r h
      refine ih ?_
      cases event with
      | operation o => exact h.step (Operation.step_run r o)
      | analysis source d text parsed => exact h.analyzeParsed source d text parsed
  exact hfold .empty

/-- The document forgotten, an analysis leaves its placeholders only. -/
theorem WellFormed.forget_analyze {r : Registry} (h : r.WellFormed) (source : String)
    (d : DocumentId) (text : String) (tree : Tree) :
    (GrammarIndex.analyze source r d text tree).2.forget d =
      (r.forget d).mention (analysisNames source r d text tree) := by
  have hstart : (analysisStart source r d text).registry.forget d = r.forget d :=
    forget_forget r d
  -- stopped or not, the pass has played its moves, and forgetting leaves their names
  have hplay : ((analysisStart source r d text).play ((analysisStart source r d text).walkMoves
      tree.occurrences)).registry.forget d =
      (r.forget d).mention (analysisNames source r d text tree) := by
    have hmoves := Pass.forget_play (p := analysisStart source r d text) (h.forget d)
      ((analysisStart source r d text).walkMoves tree.occurrences)
    rw [show (analysisStart source r d text).document = d from rfl, hstart] at hmoves
    exact hmoves
  rcases registry_analyze source r d text tree with heq | heq
  · rw [heq]
    exact hplay
  · rw [heq, forget_forget]
    exact hplay

end Registry

/-! ### Twice is once -/

/-- The pass of an equal analysis right after the first: it starts where the first one
did, with the placeholders of the first. -/
theorem analysisStart_analyze {r : Registry} (h : r.WellFormed) (source : String)
    (d : DocumentId) (text : String) (tree : Tree) :
    analysisStart source (analyze source r d text tree).2 d text =
      (analysisStart source r d text).mention (analysisNames source r d text tree) := by
  unfold analysisStart Pass.start Pass.mention
  rw [h.forget_analyze]

theorem analyze_analyze {r : Registry} (h : r.WellFormed) (source : String) (d : DocumentId)
    (text : String) (tree : Tree) :
    analyze source (analyze source r d text tree).2 d text tree = analyze source r d text tree := by
  have hwalk := Pass.walk_mention (p := analysisStart source r d text) (h.forget d)
    (by simp) tree.ownersFirst_occurrences []
  rw [List.append_nil, Pass.mentionAfter_nil] at hwalk
  rw [analyze_eq, analysisStart_analyze h, analysisNames, hwalk, ← analyze_eq]

/-- **Analysing a document twice is analysing it once.**  After whatever history, the
second of two equal analyses gives the answer of the first, symbol for symbol and
diagnostic for diagnostic, or the same fault; and it leaves the very registry that
the first has left, in every entry and in the order of all entries. -/
theorem analyze_twice (history : List Registry.Event) (source : String) (d : DocumentId)
    (text : String) (tree : Tree) :
    let first := analyze source (Registry.after history) d text tree
    analyze source first.2 d text tree = first :=
  analyze_analyze (Registry.wellFormed_after history) source d text tree

end GrammarIndex
