import GrammarIndex.Proofs.Workspace.Coherence

/-!
# Stored texts and stored analyses

A host stores texts and analyses side by side, and an edit may change the one without the other.
But it does so only for documents that hold no grammars, and these never have an analysis.  So
whatever an analysis tells of the text that it was made from holds of the text that is stored
beside it.

## Main definitions

* `Host.Backed` — the stored text of a document bears out what its analysis tells.
* `Host.Backs` — so it is with every analysis that the host stores.

## Main results

* `Host.Backs.edit`, `Host.Backs.replay` — **what analyses tell of their texts holds of stored
  texts**, over one edit and over all.
-/

namespace GrammarIndex

namespace Host

/-- The text that the host stores for the document stands in this relation to the analysis, and the
document holds grammars. -/
structure Backed (h : Host) (tells : DocumentId → String → Analysis → Prop) (d : DocumentId)
    (a : Analysis) : Prop where
  /-- The document holds grammars. -/
  handled : ∃ uri, h.documents.uri? d = some uri ∧ h.config.handles uri = true
  /-- The document has a text, and the analysis tells this of it. -/
  told : ∃ text, h.documents.text? d = some text ∧ tells d text a

/-- The stored text of every document stands in this relation to the stored analysis. -/
def Backs (h : Host) (tells : DocumentId → String → Analysis → Prop) : Prop :=
  ∀ d a, h.analysis? d = some a → h.Backed tells d a

variable {h : Host} {r : Registry} {tells : DocumentId → String → Analysis → Prop}

theorem backs_start (config : Config) : (start config).Backs tells :=
  fun _ _ ha => absurd ha (by simp [start, analysis?, Table.get?, Table.empty])

/-! ### Texts of other documents -/

/-- What is stored of a document stays as long as the document keeps its text. -/
theorem Backed.congr {h' : Host} {d : DocumentId} {a : Analysis} (hb : h.Backed tells d a)
    (hconfig : h'.config = h.config) (hdocument : ∀ uri, h.documents.uri? d = some uri →
      h'.documents.uri? d = some uri) (htext : h'.documents.text? d = h.documents.text? d) :
    h'.Backed tells d a := by
  obtain ⟨uri, huri, hhandles⟩ := hb.handled
  exact ⟨⟨uri, hdocument uri huri, hconfig ▸ hhandles⟩, htext ▸ hb.told⟩

/-- The texts after one of them is stored. -/
theorem text?_store (h : Host) (uri text : String) (d : DocumentId) :
    (h.store uri text).2.documents.text? d =
      if (h.documents.identify uri).1 = d then some text else h.documents.text? d := by
  have htexts : (h.store uri text).2.documents.texts =
      h.documents.texts.insert (h.documents.identify uri).1 text := by
    simp only [store, DocumentSet.identify]
    cases h.documents.find? uri <;> rfl
  rw [DocumentSet.text?, htexts]
  exact Table.get?_insert ..

/-- What is stored of a document stays when the text of another one is stored. -/
theorem Backed.store {uri text : String} {d : DocumentId} {a : Analysis} (hb : h.Backed tells d a)
    (hd : (h.documents.identify uri).1 ≠ d) : (h.store uri text).2.Backed tells d a := by
  refine hb.congr rfl (fun _ huri => DocumentSet.uri?_identify_of_some huri uri) ?_
  rw [text?_store, if_neg hd]

/-! ### Edits -/

/-- Every analysis of a text tells this of it. -/
def Establishes (tells : DocumentId → String → Analysis → Prop) (source : String) : Edit → Prop
  | .set _ text parsed => ∀ (r : Registry) (d : DocumentId) (a : Analysis), r.WellFormed →
    (analyzeParsed source r d text parsed).1 = .ok a → tells d text a
  | .remove _ => True

/-- What an edit does to the host where the document holds grammars. -/
theorem set_of_handles {uri : String} (hhandles : h.config.handles uri = true) (text : String)
    (parsed : Except ParseError Tree) :
    (h.set r uri text parsed).2.1.documents = (h.store uri text).2.documents ∧
      (h.set r uri text parsed).2.1.config = h.config ∧
      (h.set r uri text parsed).2.1.results = h.keep (h.documents.identify uri).1
        (analyzeParsed h.config.source r (h.documents.identify uri).1 text parsed).1 := by
  simp only [set, store, hhandles, if_true]
  rcases analyzeParsed h.config.source r (h.documents.identify uri).1 text parsed with
    ⟨a | fault, r'⟩ <;> exact ⟨rfl, rfl, rfl⟩

/-- And where it holds none. -/
theorem set_of_not_handles {uri : String} (hhandles : h.config.handles uri = false) (text : String)
    (parsed : Except ParseError Tree) :
    (h.set r uri text parsed).2.1 = (h.store uri text).2 := by
  simp only [set, store, hhandles, Bool.false_eq_true, if_false]

theorem config_edit (h : Host) (r : Registry) (e : Edit) : (h.edit r e).2.1.config = h.config := by
  cases e with
  | set uri text parsed =>
    cases hhandles : h.config.handles uri with
    | true => exact (set_of_handles hhandles text parsed).2.1
    | false => exact (congrArg Host.config (set_of_not_handles hhandles text parsed)).trans rfl
  | remove uri =>
    simp only [edit, remove]
    cases h.documents.find? uri <;> rfl

theorem config_replay (h : Host) (r : Registry) (edits : List Edit) :
    (h.replay r edits).1.config = h.config := by
  induction edits generalizing h r with
  | nil => rfl
  | cons e edits ih => exact (ih _ _).trans (config_edit h r e)

namespace Backs

/-- A new text comes with a new analysis, or with none. -/
theorem set (hb : h.Backs tells) (hr : r.WellFormed) {uri text : String}
    {parsed : Except ParseError Tree}
    (hnew : Establishes tells h.config.source (.set uri text parsed)) :
    (h.set r uri text parsed).2.1.Backs tells := by
  intro d a ha
  cases hhandles : h.config.handles uri with
  | false =>
    -- the text of a document without grammars changes, and no analysis
    rw [set_of_not_handles hhandles] at ha ⊢
    have hbefore := hb d a ha
    refine hbefore.store fun hd => ?_
    obtain ⟨uri', huri', hhandles'⟩ := hbefore.handled
    have hsame := DocumentSet.uri?_identify_of_some huri' uri
    rw [← hd, DocumentSet.uri?_identify, Option.some.injEq] at hsame
    rw [hsame, hhandles'] at hhandles
    exact absurd hhandles (by simp)
  | true =>
    obtain ⟨hdocuments, hconfig, hresults⟩ := set_of_handles (r := r) hhandles text parsed
    rw [analysis?, hresults, get?_keep] at ha
    split at ha
    · next hd =>
      -- the document at hand: the analysis is the one that was just made
      subst hd
      refine ⟨⟨uri, ?_, by rw [hconfig, hhandles]⟩, text, ?_, hnew r _ a hr ?_⟩
      · rw [hdocuments]
        exact DocumentSet.uri?_identify h.documents uri
      · rw [hdocuments, text?_store, if_pos rfl]
      · cases hanswer : (analyzeParsed h.config.source r (h.documents.identify uri).1 text
            parsed).1 with
        | ok a' =>
          rw [hanswer] at ha
          exact congrArg Except.ok (Option.some.inj ha)
        | error fault =>
          rw [hanswer] at ha
          exact absurd ha (by simp [Except.toOption])
    · next hd =>
      -- another document: neither its analysis nor its text is touched
      have hstored : (h.store uri text).2.Backed tells d a := (hb d a ha).store hd
      exact hstored.congr hconfig (fun _ huri => hdocuments ▸ huri) (by rw [hdocuments])

/-- A document that is closed has no analysis, and the others stay as they were. -/
theorem remove (hb : h.Backs tells) (r : Registry) (uri : String) :
    (h.remove r uri).2.1.Backs tells := by
  unfold Host.remove
  cases h.documents.find? uri with
  | none => exact hb
  | some d' =>
    intro d a ha
    have herased : (h.results.erase d').get? d = some a := ha
    rw [Table.get?_erase] at herased
    split at herased
    · exact absurd herased (by simp)
    · next hd =>
      refine (hb d a herased).congr rfl (fun _ huri => huri) ?_
      show (h.documents.texts.erase d').get? d = h.documents.texts.get? d
      rw [Table.get?_erase, if_neg hd]

/-- **What analyses tell of their texts holds of stored texts** after an edit. -/
theorem edit (hb : h.Backs tells) (hr : r.WellFormed) {e : Edit}
    (hnew : Establishes tells h.config.source e) : (h.edit r e).2.1.Backs tells := by
  cases e with
  | set uri text parsed => exact hb.set hr hnew
  | remove uri => exact hb.remove r uri

/-- **What analyses tell of their texts holds of stored texts** after every history of edits. -/
theorem replay (hb : h.Backs tells) (hc : h.Coherent r) {edits : List Edit}
    (hnew : ∀ e ∈ edits, Establishes tells h.config.source e) :
    (h.replay r edits).1.Backs tells := by
  induction edits generalizing h r with
  | nil => exact hb
  | cons e edits ih =>
    obtain ⟨he, hedits⟩ := List.forall_mem_cons.mp hnew
    refine ih (hb.edit hc.wellFormed he) (hc.edit e) ?_
    rw [config_edit]
    exact hedits

end Backs

end Host

end GrammarIndex
