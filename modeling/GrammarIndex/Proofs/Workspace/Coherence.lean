import GrammarIndex.Proofs.Analysis.Recorded
import GrammarIndex.Workspace.History

/-!
# Hosts and their registry

A host stores the latest analysis of each document, and the registry stores what the
documents say.  Both are updated at every edit, and by different code for each of its
ways to end: an analysis, a fault, a text that the parser refused, a document that
holds no grammars, a document that is closed.  They never come apart.

## Main definitions

* `Host.latest` — what the host knows of a document.
* `Host.Edited` — everything that an edit can do to results and registry.
* `Host.Coherent` — the registry reflects what the host knows, document by document.

## Main results

* `Host.edited_edit` — every edit is one of these.
* `Host.Coherent.edit` — **an edit keeps host and registry coherent.**
* `Host.replay_coherent` — **host and registry are coherent after every history.**
-/

namespace GrammarIndex

namespace Host

/-- What the host knows of a document: its latest analysis, or nothing. -/
def latest (h : Host) (d : DocumentId) : Analysis := (h.analysis? d).getD (.empty d)

/-! ### What an edit does -/

/-- The results of the host after an attempt to analyse a document. -/
def keep (h : Host) (d : DocumentId) : Except Fault Analysis → Table DocumentId Analysis
  | .ok a => h.results.insert d a
  | .error _ => h.results.erase d

theorem get?_keep (h : Host) (d : DocumentId) (answer : Except Fault Analysis)
    (d' : DocumentId) :
    (h.keep d answer).get? d' = if d = d' then answer.toOption else h.results.get? d' := by
  cases answer with
  | ok a => exact Table.get?_insert ..
  | error fault => exact Table.get?_erase ..

/-- Everything that an edit can do to the results of a host and to the registry, by
the document that it replaces there. -/
inductive Edited (h : Host) (r : Registry) :
    Option DocumentId → Table DocumentId Analysis → Registry → Prop
  /-- Nothing was replaced: the document holds no grammars, or is not known. -/
  | ignored : Edited h r none h.results r
  /-- The document was analysed, or refused by the parser, or found to be at fault. -/
  | attempted (d : DocumentId) (text : String) (parsed : Except ParseError Tree) :
    Edited h r (some d) (h.keep d (analyzeParsed h.config.source r d text parsed).1)
      (analyzeParsed h.config.source r d text parsed).2
  /-- The document was closed. -/
  | removed (d : DocumentId) : Edited h r (some d) (h.results.erase d) (r.forget d)

theorem edited_edit (h : Host) (r : Registry) (e : Edit) :
    h.Edited r (e.target? h) (h.edit r e).2.1.results (h.edit r e).2.2 := by
  cases e with
  | set uri text parsed =>
    cases hhandles : h.config.handles uri with
    | true =>
      -- an analysis is tried: its result is stored, or the last one is taken away
      have hattempted := Edited.attempted (h := h) (r := r) (h.documents.identify uri).1 text parsed
      simp only [edit, set, store, Edit.target?, hhandles, if_true]
      rcases hanalyze : analyzeParsed h.config.source r (h.documents.identify uri).1 text parsed
        with ⟨a | fault, r'⟩
      · rw [hanalyze] at hattempted
        exact hattempted
      · rw [hanalyze] at hattempted
        exact hattempted
    | false =>
      simp only [edit, set, store, Edit.target?, hhandles, Bool.false_eq_true, if_false]
      -- no grammar is looked for in such a document
      exact .ignored
  | remove uri =>
    simp only [edit, remove, Edit.target?]
    cases h.documents.find? uri with
    | none => exact .ignored
    | some d => exact .removed d

namespace Edited

variable {h : Host} {r : Registry} {target : Option DocumentId}
  {results : Table DocumentId Analysis} {r' : Registry}

theorem wellFormed (he : h.Edited r target results r') (hr : r.WellFormed) : r'.WellFormed := by
  cases he with
  | ignored => exact hr
  | attempted d text parsed => exact hr.analyzeParsed _ d text parsed
  | removed d => exact hr.forget d

/-- The document of an edit is replaced in the results and in the registry alike. -/
theorem reflects_target {d : DocumentId} (he : h.Edited r (some d) results r')
    (hr : r.WellFormed) : r'.Reflects d ((results.get? d).getD (.empty d)) := by
  cases he with
  | attempted d text parsed =>
    rw [get?_keep, if_pos rfl]
    exact hr.reflects_analyzeParsed _ d text parsed
  | removed d =>
    rw [Table.get?_erase, if_pos rfl]
    exact hr.reflects_forget_self d

/-- The results of other documents stay. -/
theorem get?_of_ne {d : DocumentId} (he : h.Edited r target results r') (hd : target ≠ some d) :
    results.get? d = h.results.get? d := by
  cases he with
  | ignored => rfl
  | attempted d' text parsed =>
    have hne : d' ≠ d := fun heq => hd (congrArg some heq)
    rw [get?_keep, if_neg hne]
  | removed d' =>
    have hne : d' ≠ d := fun heq => hd (congrArg some heq)
    rw [Table.get?_erase, if_neg hne]

/-- What the registry reflects of other documents stays. -/
theorem reflects_of_ne {d : DocumentId} {a : Analysis} (he : h.Edited r target results r')
    (hr : r.WellFormed) (hd : target ≠ some d) (ha : r.Reflects d a) : r'.Reflects d a := by
  cases he with
  | ignored => exact ha
  | attempted d' text parsed =>
    have hne : d' ≠ d := fun heq => hd (congrArg some heq)
    exact ha.analyzeParsed hr _ hne text parsed
  | removed d' =>
    have hne : d' ≠ d := fun heq => hd (congrArg some heq)
    exact (hr.reflects_forget_iff hne).mpr ha

end Edited

/-! ### Coherence -/

/-- Host and registry are coherent: of every document, the registry reflects what the
host knows. -/
structure Coherent (h : Host) (r : Registry) : Prop where
  /-- The registry satisfies its own invariant. -/
  wellFormed : r.WellFormed
  /-- The registry reflects what the host knows. -/
  reflects : ∀ d, r.Reflects d (h.latest d)

namespace Coherent

theorem start (config : Config) : (Host.start config).Coherent .empty where
  wellFormed := .empty
  reflects := by
    intro d
    rw [Registry.WellFormed.empty.reflects_iff]
    exact ⟨fun i => rfl, fun i => Iff.rfl⟩

/-- An edit keeps host and registry coherent: the document that it replaces, and
every other. -/
theorem edit {h : Host} {r : Registry} (hc : h.Coherent r) (e : Edit) :
    (h.edit r e).2.1.Coherent (h.edit r e).2.2 where
  wellFormed := (edited_edit h r e).wellFormed hc.wellFormed
  reflects := by
    intro d
    have hedited := edited_edit h r e
    by_cases hd : e.target? h = some d
    · rw [hd] at hedited
      exact hedited.reflects_target hc.wellFormed
    · rw [latest, analysis?, hedited.get?_of_ne hd]
      exact hedited.reflects_of_ne hc.wellFormed hd (hc.reflects d)

theorem replay {h : Host} {r : Registry} (hc : h.Coherent r) (edits : List Edit) :
    (h.replay r edits).1.Coherent (h.replay r edits).2 := by
  induction edits generalizing h r with
  | nil => exact hc
  | cons e edits ih => exact ih (hc.edit e)

end Coherent

/-- **Host and registry are coherent after every history.**  If the host stores an
analysis of a document, the registry has of the document what the analysis lists, and
if it stores none, the registry has nothing of it. -/
theorem replay_coherent (config : Config) (edits : List Edit) (d : DocumentId) :
    let after := (Host.start config).replay .empty edits
    match after.1.analysis? d with
    | some a => after.2.Reflects d a
    | none => after.2.Silent d := by
  intro after
  have hc : after.1.Coherent after.2 := (Coherent.start config).replay edits
  have hreflects := hc.reflects d
  unfold latest at hreflects
  cases ha : after.1.analysis? d with
  | some a =>
    rw [ha] at hreflects
    exact hreflects
  | none =>
    rw [ha] at hreflects
    exact hreflects.silent hc.wellFormed

end Host

end GrammarIndex
