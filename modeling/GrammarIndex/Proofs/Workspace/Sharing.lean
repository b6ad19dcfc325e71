import GrammarIndex.Proofs.Workspace.Coherence

/-!
# Hosts that share a registry

Every host numbers its documents from zero, and the registry knows a document by its
number alone.  So the first documents of two hosts are one document to the registry
that they share, and whichever host replaced it last has its say: the other one still
stores an analysis that the registry does not reflect any longer.  This module says
exactly when it does.

## Main definitions

* `Workspace.Attributed` — the registry reflects the last writer of each document.
* `Workspace.UrisApart` — no URI is edited in two hosts.

## Main results

* `Workspace.Attributed.step`, `Workspace.Attributed.replay` — one step, and all.
* `Workspace.holds_stored_iff` — **a stored analysis is in the registry exactly when
  the last writer of its number knows the same ranges.**
* `Workspace.not_holds_of_urisApart` — that the hosts keep to documents of their own
  is not enough.
-/

namespace GrammarIndex

/-- The URI of the document that is edited. -/
def Edit.uri : Edit → String
  | .set uri _ _ => uri
  | .remove uri => uri

namespace Workspace

/-- The analysis of a document that the host `k` stores. -/
def analysis? (w : Workspace) (k : Nat) (d : DocumentId) : Option Analysis :=
  (w.hosts[k]?).bind (·.analysis? d)

/-- What the last writer of a document knows of it; nothing, if there is none. -/
def latest (w : Workspace) (writer : Option Nat) (d : DocumentId) : Analysis :=
  (writer.bind fun k => w.analysis? k d).getD (.empty d)

/-- Of every document the registry reflects what its last writer knows. -/
structure Attributed (w : Workspace) (writer : DocumentId → Option Nat) : Prop where
  /-- The registry satisfies its own invariant. -/
  wellFormed : w.registry.WellFormed
  /-- The registry reflects what the last writer knows. -/
  reflects : ∀ d, w.registry.Reflects d (w.latest (writer d) d)
  /-- No host stores an analysis of a document without a writer. -/
  unknown : ∀ {d : DocumentId}, writer d = none → ∀ k, w.analysis? k d = none

/-! ### One step -/

/-- A step in a host that does not exist does nothing. -/
theorem step_eq_self {w : Workspace} {s : Step} (hh : w.hosts[s.host]? = none) : w.step s = w := by
  simp only [step, edit, hh]

theorem registry_step {w : Workspace} {s : Step} {h : Host} (hh : w.hosts[s.host]? = some h) :
    (w.step s).registry = (h.edit w.registry s.edit).2.2 := by
  simp only [step, edit, hh]

/-- The hosts after a step: the one that was edited, and the others as they were. -/
theorem hosts_step {w : Workspace} {s : Step} {h : Host} (hh : w.hosts[s.host]? = some h)
    (k : Nat) :
    (w.step s).hosts[k]? =
      if s.host = k then some (h.edit w.registry s.edit).2.1 else w.hosts[k]? := by
  have hlt : s.host < w.hosts.length := (List.getElem?_eq_some_iff.mp hh).1
  simp only [step, edit, hh, List.getElem?_set, if_pos hlt]

theorem edited_step {w : Workspace} {s : Step} {h : Host} (hh : w.hosts[s.host]? = some h) :
    h.Edited w.registry (w.target? s) (h.edit w.registry s.edit).2.1.results
      (w.step s).registry := by
  rw [target?, hh, registry_step hh]
  exact Host.edited_edit h w.registry s.edit

theorem wellFormed_step {w : Workspace} (hw : w.registry.WellFormed) (s : Step) :
    (w.step s).registry.WellFormed := by
  cases hh : w.hosts[s.host]? with
  | none => rw [step_eq_self hh]; exact hw
  | some h => exact (edited_step hh).wellFormed hw

/-- The document that a step replaces is replaced in its host and in the registry. -/
theorem reflects_step_target {w : Workspace} (hw : w.registry.WellFormed) {s : Step}
    {d : DocumentId} (hd : w.target? s = some d) :
    (w.step s).registry.Reflects d ((w.step s).latest (some s.host) d) := by
  cases hh : w.hosts[s.host]? with
  | none =>
    rw [target?, hh] at hd
    exact absurd hd (by simp)
  | some h =>
    have hedited := edited_step hh
    rw [hd] at hedited
    rw [latest, Option.bind_some, analysis?, hosts_step hh, if_pos rfl]
    exact hedited.reflects_target hw

/-- Every host stores of other documents what it stored before. -/
theorem analysis?_step_of_ne {w : Workspace} {s : Step} {d : DocumentId}
    (hd : w.target? s ≠ some d) (k : Nat) : (w.step s).analysis? k d = w.analysis? k d := by
  cases hh : w.hosts[s.host]? with
  | none => rw [step_eq_self hh]
  | some h =>
    rw [analysis?, hosts_step hh, analysis?]
    by_cases hk : s.host = k
    · rw [if_pos hk, ← hk, hh]
      exact (edited_step hh).get?_of_ne hd
    · rw [if_neg hk]

/-- The registry reflects of other documents what it reflected before. -/
theorem reflects_step_of_ne {w : Workspace} (hw : w.registry.WellFormed) {s : Step}
    {d : DocumentId} (hd : w.target? s ≠ some d) {a : Analysis} (ha : w.registry.Reflects d a) :
    (w.step s).registry.Reflects d a := by
  cases hh : w.hosts[s.host]? with
  | none => rw [step_eq_self hh]; exact ha
  | some h => exact (edited_step hh).reflects_of_ne hw hd ha

/-! ### Whole histories -/

namespace Attributed

theorem start (configs : List Config) : (Workspace.start configs).Attributed fun _ => none where
  wellFormed := .empty
  reflects := (Host.Coherent.start .default).reflects
  unknown := by
    intro d _ k
    cases hk : (Workspace.start configs).hosts[k]? with
    | none => rw [analysis?, hk]; rfl
    | some h =>
      rw [analysis?, hk]
      rw [Workspace.start, List.getElem?_map, Option.map_eq_some_iff] at hk
      obtain ⟨config, -, rfl⟩ := hk
      rfl

/-- **One step**: the host that takes it is the last writer of the document that it
replaces, and every other document keeps its writer. -/
theorem step {w : Workspace} {writer : DocumentId → Option Nat} (hw : w.Attributed writer)
    (s : Step) :
    (w.step s).Attributed fun d => if w.target? s = some d then some s.host else writer d where
  wellFormed := wellFormed_step hw.wellFormed s
  reflects := by
    intro d
    -- the document that is written has a new writer, and the others keep theirs
    by_cases hd : w.target? s = some d
    · rw [if_pos hd]
      exact reflects_step_target hw.wellFormed hd
    · have hlatest : (w.step s).latest (writer d) d = w.latest (writer d) d := by
        simp only [latest, analysis?_step_of_ne hd]
      rw [if_neg hd, hlatest]
      exact reflects_step_of_ne hw.wellFormed hd (hw.reflects d)
  unknown := by
    intro d hnone k
    by_cases hd : w.target? s = some d
    · rw [if_pos hd] at hnone
      exact absurd hnone (by simp)
    · rw [if_neg hd] at hnone
      rw [analysis?_step_of_ne hd]
      exact hw.unknown hnone k

/-- **All steps**, in whatever order the hosts take them. -/
theorem replay {w : Workspace} {writer : DocumentId → Option Nat} (hw : w.Attributed writer)
    (steps : List Step) :
    (w.replay steps).Attributed fun d => w.lastWriter d (writer d) steps := by
  induction steps generalizing w writer with
  | nil => exact hw
  | cons s steps ih => exact ih (hw.step s)

end Attributed

/-- **A stored analysis is in the registry exactly when the last writer of its number
knows the same ranges.**  So it is there as long as the host that stores it is the
last writer itself; once another host has replaced or closed its own document of that
number, it is there only if that document is spoken of in the very same ranges. -/
theorem holds_stored_iff (configs : List Config) (steps : List Step) {k : Nat} {d : DocumentId}
    {a : Analysis} (ha : ((start configs).replay steps).analysis? k d = some a) :
    (∀ i, ((start configs).replay steps).registry.slice d i = a.slice i) ↔
      ∃ j, (start configs).lastWriter d none steps = some j ∧
        ∀ i, (((start configs).replay steps).latest (some j) d).slice i = a.slice i := by
  have hw := (Attributed.start configs).replay steps
  have hslice := (hw.reflects d).slice_eq
  cases hwriter : (start configs).lastWriter d none steps with
  | none =>
    -- somebody has written the number, for an analysis of it is stored
    have hnone := hw.unknown hwriter k
    rw [ha] at hnone
    exact absurd hnone (by simp)
  | some j =>
    rw [hwriter] at hslice
    constructor
    · intro h
      exact ⟨j, rfl, fun i => (hslice i).symm.trans (h i)⟩
    · rintro ⟨j', hj', h⟩ i
      rw [← Option.some.inj hj'] at h
      exact (hslice i).trans (h i)

/-! ### Documents apart, numbers alike -/

/-- No URI is edited in two hosts. -/
def UrisApart (steps : List Step) : Prop :=
  ∀ s ∈ steps, ∀ s' ∈ steps, s.edit.uri = s'.edit.uri → s.host = s'.host

/-- One host opens a document that declares the grammar `G`, and another host opens an
empty one.  Each is the first document of its host. -/
def firstDocuments : List Step :=
  [⟨0, .set "a.gram" "grammar G { }" (.ok ⟨[⟨⟨"G", ⟨8, 9⟩⟩, [], [], [], []⟩]⟩)⟩,
    ⟨1, .set "b.gram" "" (.ok ⟨[]⟩)⟩]

/-- The analysis of the document that declares `G`. -/
def firstAnalysis : Analysis := ⟨⟨0⟩, [⟨⟨0⟩, ⟨⟨0, 8⟩, ⟨0, 9⟩⟩⟩], [], []⟩

/-- The first host stores its analysis, and the last writer is the other one. -/
theorem holds_stored_iff_firstDocuments :
    let w := (start [.default, .default]).replay firstDocuments
    w.analysis? 0 ⟨0⟩ = some firstAnalysis ∧
      (start [.default, .default]).lastWriter ⟨0⟩ none firstDocuments = some 1 ∧
      ((∀ i, w.registry.slice ⟨0⟩ i = firstAnalysis.slice i) ↔
        ∃ j, (start [.default, .default]).lastWriter ⟨0⟩ none firstDocuments = some j ∧
          ∀ i, (w.latest (some j) ⟨0⟩).slice i = firstAnalysis.slice i) :=
  ⟨by decide, by decide,
    holds_stored_iff [.default, .default] firstDocuments (k := 0) (by decide)⟩

/-- **Documents apart are not enough.**  The empty document of the second host has
the number of the first host's document, and the registry has lost the definition of
`G` that the first host still stores. -/
theorem not_holds_of_urisApart :
    ¬ ∀ (configs : List Config) (steps : List Step), UrisApart steps →
      ∀ (k : Nat) (d : DocumentId) (a : Analysis),
        ((start configs).replay steps).analysis? k d = some a →
          ∀ i, ((start configs).replay steps).registry.slice d i = a.slice i := by
  intro hall
  have hapart : UrisApart firstDocuments := by
    unfold UrisApart
    decide
  have hstored : ((start [.default, .default]).replay firstDocuments).analysis? 0 ⟨0⟩ =
      some firstAnalysis := by decide
  have hheld := hall [.default, .default] firstDocuments hapart 0 ⟨0⟩ firstAnalysis hstored ⟨0⟩
  have hlost : ((start [.default, .default]).replay firstDocuments).registry.slice ⟨0⟩ ⟨0⟩ ≠
      firstAnalysis.slice ⟨0⟩ := by decide
  exact hlost hheld

end Workspace

end GrammarIndex
