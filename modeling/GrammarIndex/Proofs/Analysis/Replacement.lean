import GrammarIndex.Outcome
import GrammarIndex.Proofs.Analysis.Abandonment
import GrammarIndex.Proofs.Analysis.Recorded
import Mathlib.Data.List.Sort

/-!
# An analysis replaces its document

Whatever a document said before, after an analysis it says what the analysis lists, and all
other documents say what they said.  The pass writes every definition and every reference
twice, into the registry and into its result, and states kinds on the way that may be refused.
It also mentions names, which no document takes note of.

## Main definitions

* `Symbol.SameBut` — nothing but the word of one document has changed about a symbol.
* `Registry.KeepsOthers` — nothing but the word of one document has changed in a registry.
* `Registry.Replaces` — and that document says what an analysis lists.

## Main results

* `Registry.WellFormed.keepsOthers_of_forget_eq` — to keep the others it is enough that only
  placeholders remain when the document is forgotten.
* `replaces_of_analyze` — **an analysis replaces the word of its document, and no other's.**
-/

namespace GrammarIndex

/-! ### What other documents say -/

/-- Nothing but the word of one document has changed about the symbol `s`: the other documents
still come in the same order, with the kinds and parents that they state and the ranges at which
they define and reference the symbol. -/
structure Symbol.SameBut (s : Symbol) (d : DocumentId) (s' : Symbol) : Prop where
  /-- The symbol has its name. -/
  qualifiedName_eq : s'.qualifiedName = s.qualifiedName
  /-- The statements of the other documents are the same. -/
  statements_eq :
    s'.statements.entries.filter (·.1 ≠ d) = s.statements.entries.filter (·.1 ≠ d)
  /-- They define it where they did. -/
  definitions_eq :
    s'.definitions.entries.filter (·.1 ≠ d) = s.definitions.entries.filter (·.1 ≠ d)
  /-- They reference it where they did. -/
  references_eq :
    s'.references.entries.filter (·.1 ≠ d) = s.references.entries.filter (·.1 ≠ d)

/-- Symbols that are the same once the document is forgotten. -/
theorem Symbol.sameBut_of_forget_eq {s s' : Symbol} {d : DocumentId}
    (h : s'.forget d = s.forget d) : s.SameBut d s' where
  qualifiedName_eq := by simpa [Symbol.forget] using congrArg Symbol.qualifiedName h
  statements_eq := congrArg (·.statements.entries) h
  definitions_eq := congrArg (·.definitions.entries) h
  references_eq := congrArg (·.references.entries) h

namespace Symbol.SameBut

variable {s s' : Symbol} {d d' : DocumentId}

/-- Another document defines the symbol at the same ranges. -/
theorem definitionsIn_eq (h : s.SameBut d s') (hd : d ≠ d') :
    s'.definitionsIn d' = s.definitionsIn d' := by
  have herase : s'.definitions.erase d = s.definitions.erase d := congrArg Table.mk h.definitions_eq
  have hget := congrArg (·.get? d') herase
  simp only [Table.get?_erase, if_neg hd] at hget
  rw [definitionsIn, definitionsIn, hget]

/-- Another document has stated a kind if it had. -/
theorem contains_statements_eq (h : s.SameBut d s') (hd : d ≠ d') :
    s'.statements.contains d' = s.statements.contains d' := by
  have herase : s'.statements.erase d = s.statements.erase d := congrArg Table.mk h.statements_eq
  have hcontains := congrArg (·.contains d') herase
  simpa [Table.contains_erase, hd] using hcontains

end Symbol.SameBut

namespace Registry

variable {r r' : Registry} {d : DocumentId}

/-- Nothing but the word of one document has changed in the registry `r`, and names were
mentioned. -/
structure KeepsOthers (r : Registry) (d : DocumentId) (r' : Registry) : Prop where
  /-- A name keeps its handle. -/
  lookup? : ∀ {name : String} {i : SymbolId}, r.lookup? name = some i → r'.lookup? name = some i
  /-- A symbol that was there has what the other documents say about it. -/
  symbol? : ∀ {i : SymbolId} {s : Symbol}, r.symbol? i = some s →
    ∃ s', r'.symbol? i = some s' ∧ s.SameBut d s'
  /-- Of a symbol that was not there, no other document speaks. -/
  created : ∀ {i : SymbolId} {s : Symbol}, r.symbol? i = none → r'.symbol? i = some s →
    ∀ d' ≠ d, ¬ s.SpokenOfBy d'
  /-- The other documents speak of the symbols of which they spoke. -/
  symbolsIn_eq : ∀ d' ≠ d, (r'.symbolsIn d').map (·.id) = (r.symbolsIn d').map (·.id)

/-- The handles of a document tell which symbols it speaks of, and in which order they are
listed. -/
theorem WellFormed.map_id_symbolsIn_eq (h : r.WellFormed) (h' : r'.WellFormed)
    (hids : r'.idsIn d = r.idsIn d) : (r'.symbolsIn d).map (·.id) = (r.symbolsIn d).map (·.id) := by
  let Below : SymbolId → SymbolId → Prop := fun i j => i.index < j.index
  have hordered : ∀ {r : Registry}, r.WellFormed →
      ((r.symbolsIn d).map (·.id)).Pairwise Below :=
    fun h => List.pairwise_map.mpr (h.pairwise_symbolsIn d)
  have hirrefl : Std.Irrefl Below := ⟨fun i => Nat.lt_irrefl i.index⟩
  have hantisymm : Std.Antisymm Below :=
    ⟨fun _ _ hij hji => absurd (Nat.lt_trans hij hji) (Nat.lt_irrefl _)⟩
  refine (hordered h').eq_of_mem_iff (hordered h) fun i => ?_
  rw [h'.mem_symbolsIn_iff, h.mem_symbolsIn_iff, hids]

/-- To keep what the others say, it is enough that nothing but placeholders has come in addition
when the document is forgotten. -/
theorem WellFormed.keepsOthers_of_forget_eq (h : r.WellFormed) (h' : r'.WellFormed)
    {names : List String} (hforget : r'.forget d = (r.forget d).mention names) :
    r.KeepsOthers d r' := by
  -- without the document, nothing is left of the change but names
  have hfree : r.FreeOf d (r'.forget d) := hforget ▸ h.freeOf_mention d names
  refine ⟨fun {name i} hname => ?_, fun {i s} hs => ?_, fun {i s} hnone hs d' hd' hspoken => ?_,
    fun d' hd' => h.map_id_symbolsIn_eq h' ?_⟩
  · -- names keep their handles
    have hkept : (r'.forget d).lookup? name = some i := by
      rw [hforget]
      exact lookup?_mention (by rwa [lookup?_forget]) names
    rwa [lookup?_forget] at hkept
  · -- a symbol says what it said, once the document is forgotten
    have hforgotten := hfree.forgotten hs
    rw [h'.symbol?_forget] at hforgotten
    obtain ⟨s', hs', heq⟩ := Option.map_eq_some_iff.mp hforgotten
    exact ⟨s', hs', Symbol.sameBut_of_forget_eq heq⟩
  · -- a symbol that is new is spoken of by nobody else
    have hforgotten : (r'.forget d).symbol? i = some (s.forget d) := by
      rw [h'.symbol?_forget, hs, Option.map_some]
    have hplaceholder := hfree.created (symbol?_eq_none_iff.mp hnone) hforgotten
    have hspoken' := (Symbol.spokenOfBy_forget_of_ne hd'.symm).mpr hspoken
    rw [hplaceholder] at hspoken'
    exact Symbol.not_spokenOfBy_placeholder _ _ _ hspoken'
  · -- the index has the same for any other document
    have hids : (r'.forget d).idsIn d' = (r.forget d).idsIn d' := by rw [hforget, idsIn_mention]
    rwa [idsIn_forget, idsIn_forget, if_neg hd'.symm, if_neg hd'.symm] at hids

/-- The registry `r'` has of one document what the analysis lists, and of the others what `r`
has of them. -/
structure Replaces (r : Registry) (d : DocumentId) (a : Analysis) (r' : Registry) : Prop where
  /-- Every symbol is defined and referenced in the document where the analysis says so, and the
  document speaks of the symbols of the analysis. -/
  reflects : r'.Reflects d a
  /-- Each of them is listed once, in the order of their handles. -/
  pairwise_symbolsIn : (r'.symbolsIn d).Pairwise fun s t => s.id.index < t.id.index
  /-- The other documents say what they said. -/
  keepsOthers : r.KeepsOthers d r'

end Registry

/-- **An analysis replaces the word of its document, and no other's**, after any history. -/
theorem replaces_of_analyze {history : List Registry.Event} {source text : String}
    {d : DocumentId} {tree : Tree} {a : Analysis} {r : Registry}
    (h : analyze source (.after history) d text tree = (.ok a, r)) :
    (Registry.after history).Replaces d a r := by
  have hbefore := Registry.wellFormed_after history
  have hafter := hbefore.analyze source d text tree
  have hreflects := hbefore.reflects_analyze source d text tree
  have hforget := hbefore.forget_analyze source d text tree
  rw [h] at hafter hreflects hforget
  exact ⟨hreflects, hafter.pairwise_symbolsIn d, hbefore.keepsOthers_of_forget_eq hafter hforget⟩

/-- An older version of the first document defines a grammar and two terminals.  The second
document references the grammar, and takes one of the terminals for an action. -/
def sharedGrammar : List Registry.Event :=
  [.analysis "hime" ⟨0⟩ "A(T->x;U->x)" (.ok ⟨[⟨⟨"A", ⟨0, 1⟩⟩, [], [],
      [.terminal ⟨"T", ⟨2, 3⟩⟩ (.atom ⟨"x", ⟨5, 6⟩⟩),
        .terminal ⟨"U", ⟨7, 8⟩⟩ (.atom ⟨"x", ⟨10, 11⟩⟩)], []⟩]⟩),
    .operation (.addReference ⟨1⟩ ⟨0⟩ ⟨⟨0, 2⟩, ⟨0, 3⟩⟩),
    .operation (.setKind ⟨1⟩ ⟨1⟩ .action (some ⟨0⟩))]

/-- The newer version has one of the terminals no more, and references the other. -/
theorem replaces_of_analyze_sharedGrammar :
    let before := Registry.after sharedGrammar
    let tree : Tree := ⟨[⟨⟨"A", ⟨0, 1⟩⟩, [], [],
      [.terminal ⟨"T", ⟨2, 3⟩⟩ (.atom ⟨"x", ⟨5, 6⟩⟩),
        .terminal ⟨"V", ⟨7, 8⟩⟩ (.reference ⟨"T", ⟨10, 11⟩⟩)], []⟩]⟩
    before.idsIn ⟨0⟩ = [⟨0⟩, ⟨1⟩, ⟨2⟩] ∧ before.idsIn ⟨1⟩ = [⟨0⟩, ⟨1⟩] ∧
      ∃ a r, analyze "hime" before ⟨0⟩ "A(T->x;V->T)" tree = (.ok a, r) ∧
        a.symbols = [⟨0⟩, ⟨1⟩, ⟨3⟩, ⟨1⟩] ∧ before.Replaces ⟨0⟩ a r := by
  intro before tree
  have hsymbols : (analyze "hime" before ⟨0⟩ "A(T->x;V->T)" tree).1.toOption.any
      (fun a => a.symbols = [⟨0⟩, ⟨1⟩, ⟨3⟩, ⟨1⟩]) = true := by decide +kernel
  obtain ⟨a, r, h, ha⟩ := exists_eq_ok_of_any hsymbols
  exact ⟨by decide +kernel, by decide +kernel, a, r, h, of_decide_eq_true ha,
    replaces_of_analyze h⟩

end GrammarIndex
