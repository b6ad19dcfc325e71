import GrammarIndex.Proofs.Analysis.Handles
import GrammarIndex.Proofs.Analysis.Kinds
import GrammarIndex.Proofs.Query.Cursor
import GrammarIndex.Proofs.Query.Edits
import GrammarIndex.Query.Hover

/-!
# Answers wherever something is recorded

A use makes a symbol of its name only once it is clear what the name stands for.  So a mistake
leaves no symbol behind, not even a placeholder, and the names that an analysis brings into the
registry are those that it lists.  And whatever it lists has a kind when it ends, though the kind
of a parameter may be stated after its first use: wherever a range was recorded, the symbol there
can be described and renamed.

## Main definitions

* `Pass.Accounted` — every new name is pending, or that of a symbol in the result.
* `Registry.Answers` — a registry answers all questions about what an analysis lists.

## Main results

* `Pass.Accounted.perform` — no move brings in a name that it does not account for.
* `Registry.WellFormed.isSome_lookup?_analyze_iff` — the names that are known after an analysis.
* `answers_of_analyze` — **whatever is recorded is described and can be renamed, and no other
  name is known than before.**
-/

namespace GrammarIndex

/-! ### Names that are known -/

namespace Pass

/-- Every name of the registry was a name of the registry `r`, or is pending, or belongs to a
symbol of the result. -/
def Accounted (r : Registry) (p : Pass) (names : List String) : Prop :=
  ∀ n i, p.registry.lookup? n = some i →
    (r.lookup? n).isSome = true ∨ n ∈ names ∨ i ∈ p.result.symbols

namespace Accounted

variable {r : Registry} {p : Pass} {names : List String}

/-- A name that is known once another name is mentioned is that very name, or is accounted for
as before. -/
theorem cases_of_resolve (h : p.Accounted r names) {name n : String} {i : SymbolId}
    (hn : (p.registry.resolve name).2.lookup? n = some i) :
    (name = n ∧ (p.registry.resolve name).1 = i) ∨
      name ≠ n ∧ ((r.lookup? n).isSome = true ∨ n ∈ names ∨ i ∈ p.result.symbols) := by
  rw [Registry.lookup?_resolve] at hn
  by_cases hname : name = n
  · rw [if_pos hname] at hn
    exact .inl ⟨hname, Option.some.inj hn⟩
  · rw [if_neg hname] at hn
    exact .inr ⟨hname, h n i hn⟩

/-- A name that is mentioned is pending. -/
theorem state (h : p.Accounted r names) {q : Pass} (name : String)
    (hlookup : ∀ n, q.registry.lookup? n = (p.registry.resolve name).2.lookup? n)
    (hresult : q.result.symbols = p.result.symbols) : q.Accounted r (name :: names) := by
  intro n i hn
  rw [hlookup] at hn
  rw [hresult]
  rcases h.cases_of_resolve hn with ⟨rfl, -⟩ | ⟨-, hbefore⟩
  · exact .inr (.inl List.mem_cons_self)
  · exact hbefore.imp_right (.imp_left (List.mem_cons_of_mem name))

/-- Once it is defined or referenced, its symbol is in the result. -/
theorem settle (h : p.Accounted r names) {q : Pass} (name : String)
    (hlookup : ∀ n, q.registry.lookup? n = (p.registry.resolve name).2.lookup? n)
    (hresult : ∀ i, i ∈ q.result.symbols ↔
      i ∈ p.result.symbols ∨ i = (p.registry.resolve name).1) :
    q.Accounted r (names.filter (· ≠ name)) := by
  intro n i hn
  rw [hlookup] at hn
  rw [hresult]
  rcases h.cases_of_resolve hn with ⟨-, hi⟩ | ⟨hne, hknown | hpending | hlisted⟩
  · exact .inr (.inr (.inr hi.symm))
  · exact .inl hknown
  · exact .inr (.inl (List.mem_filter.mpr ⟨hpending, by simpa using Ne.symm hne⟩))
  · exact .inr (.inr (.inl hlisted))

/-- **No move brings in a name that it does not account for.** -/
theorem perform (h : p.Accounted r names) (m : Move) :
    (p.perform m).Accounted r (m.pending names) := by
  cases m with
  | state name kind owner =>
    exact Accounted.state h name (fun n => Registry.lookup?_write ..) rfl
  | suggest name kind owner =>
    refine Accounted.state h name (fun n => ?_) rfl
    simp only [Pass.perform, declareIfUnset, Registry.setKindIfUnset]
    split
    · exact Registry.lookup?_write ..
    · rfl
  | define name range =>
    exact h.settle name (fun n => Registry.lookup?_write ..) fun i => mem_symbols_addDefinition
  | refer name range =>
    exact h.settle name (fun n => Registry.lookup?_write ..) fun i => mem_symbols_addReference
  | note m range name => exact h
  | rescope change => exact h

end Accounted

end Pass

namespace Registry

variable {r₀ r : Registry} {d : DocumentId} {source text : String} {tree : Tree} {a : Analysis}

/-- **The names that are known after an analysis** are those that were known before, and those of
the symbols that it lists. -/
theorem WellFormed.isSome_lookup?_analyze_iff (h₀ : r₀.WellFormed)
    (h : GrammarIndex.analyze source r₀ d text tree = (.ok a, r)) (n : String) :
    (r.lookup? n).isSome = true ↔ (r₀.lookup? n).isSome = true ∨
      ∃ i ∈ a.symbols, ∃ s, r.symbol? i = some s ∧ s.qualifiedName = n := by
  obtain ⟨p, hwalk, rfl, rfl⟩ := exists_walk_of_analyze h
  have hwf : p.registry.WellFormed := by
    have hafter := h₀.analyze source d text tree
    rwa [h] at hafter
  constructor
  · -- a name that is known in the end was known before, or the analysis has recorded it
    intro hknown
    obtain ⟨i, hi⟩ := Option.isSome_iff_exists.mp hknown
    have hstart : (analysisStart source r₀ d text).Accounted r₀ [] :=
      fun _ _ hbefore => .inl (Option.isSome_of_eq_some hbefore)
    have hend : p.Accounted r₀ [] := Pass.walk_pending (fun m h => h.perform m) hstart hwalk
    rcases hend n i hi with hbefore | hpending | hlisted
    · exact .inl hbefore
    · exact absurd hpending List.not_mem_nil
    · exact .inr ⟨i, hlisted, hwf.lookup?_eq_some_iff.mp hi⟩
  · -- names are never taken back
    rintro (hbefore | ⟨i, -, hs⟩)
    · obtain ⟨i, hi⟩ := Option.isSome_iff_exists.mp hbefore
      have hkeeps : (r₀.forget d).Keeps p.registry := by
        rw [Pass.eq_play_of_walk hwalk]
        exact Pass.keeps_play (analysisStart source r₀ d text) _
      exact Option.isSome_of_eq_some (hkeeps.lookup? ((lookup?_forget r₀ d n).trans hi))
    · exact Option.isSome_of_eq_some (hwf.lookup?_eq_some_iff.mpr hs)

/-! ### Kinds that are known -/

/-- The registry answers all questions about what the analysis lists. -/
structure Answers (r : Registry) (d : DocumentId) (a : Analysis) : Prop where
  /-- A symbol of the analysis has a kind. -/
  isSome_kind? : ∀ i ∈ a.symbols, (r.kind? i).isSome = true
  /-- So has every symbol that can be found in the document. -/
  isSome_kind?_of_mem_symbolsIn : ∀ s ∈ r.symbolsIn d, s.kind?.isSome = true
  /-- Wherever a range was recorded, a symbol is found.  It is described by its kind, and it is
  renamed unless the new name is illegal. -/
  found : ∀ listed ∈ a.hits, ∀ p, listed.range.Contains p →
    ∃ hit s kind, r.symbolAt? d p = some hit ∧ r.symbol? hit.symbol = some s ∧
      s.kind? = some kind ∧
      r.hover? d p = some ⟨hoverText kind s.qualifiedName, hit.range⟩ ∧
      ∀ text newName, r.rename d text p newName =
        if isLegalName newName then .ok (s.renameEdits d text newName)
        else .error (.illegalName newName)

/-- Whatever an analysis lists has a kind after it. -/
theorem WellFormed.isSome_kind?_of_analyze (h₀ : r₀.WellFormed)
    (h : GrammarIndex.analyze source r₀ d text tree = (.ok a, r)) :
    ∀ i ∈ a.symbols, (r.kind? i).isSome = true := by
  intro i hi
  obtain ⟨w, hwalk, hshown⟩ := h₀.exists_view_of_analyze h
  obtain ⟨s, range, hs, hrecorded⟩ := hshown.exists_mention hi
  have hkind := View.isSome_kindOf_of_mem_mentions hwalk _ hrecorded
  rw [hshown.kindOf_eq hs] at hkind
  rwa [kind?, hs, Option.bind_some]

/-- Where the registry reflects an analysis, it answers all questions about it if it knows its
kinds. -/
theorem Reflects.answers (h : r.Reflects d a) (hwf : r.WellFormed)
    (hkinds : ∀ i ∈ a.symbols, (r.kind? i).isSome = true) : r.Answers d a := by
  -- the index lists what was recorded, and all of that has a kind
  have hsymbols : ∀ s ∈ r.symbolsIn d, s.kind?.isSome = true := by
    intro s hs
    have hkind := hkinds s.id ((h.mem_symbolsIn_iff _).mp (List.mem_map_of_mem hs))
    rwa [kind?, hwf.symbol?_of_mem_symbolsIn hs, Option.bind_some] at hkind
  refine ⟨hkinds, hsymbols, fun listed hlisted p hp => ?_⟩
  obtain ⟨s', hs', hrange⟩ := h.exists_of_mem_hits hwf hlisted
  obtain ⟨hit, hhit⟩ := Option.isSome_iff_exists.mp
    (hwf.isSome_symbolAt?_iff.mpr ⟨listed.symbol, s', listed.range, hs', hrange, hp⟩)
  -- whichever symbol is found, it is one of the document
  have hsymbol : hit.symbol ∈ a.symbols :=
    (h.mem_symbolsIn_iff _).mp (mem_symbolsIn_of_symbolAt? hhit)
  obtain ⟨s, hs, -⟩ := (hwf.found_of_symbolAt? hhit).first
  have hkind : s.kind?.isSome = true := by
    have hkind := hkinds hit.symbol hsymbol
    rwa [kind?, hs, Option.bind_some] at hkind
  obtain ⟨kind, hsome⟩ := Option.isSome_iff_exists.mp hkind
  refine ⟨hit, s, kind, hhit, hs, hsome, ?_, rename_of_symbolAt? hhit hs hkind⟩
  simp [hover?, hhit, hs, hsome]

end Registry

/-- **Whatever is recorded is described and can be renamed, and no other name is known than
before**, once a document was analysed after any history. -/
theorem answers_of_analyze {history : List Registry.Event} {source text : String}
    {d : DocumentId} {tree : Tree} {a : Analysis} {r : Registry}
    (h : analyze source (.after history) d text tree = (.ok a, r)) :
    r.Answers d a ∧ ∀ n, (r.lookup? n).isSome = true ↔
      ((Registry.after history).lookup? n).isSome = true ∨
        ∃ i ∈ a.symbols, ∃ s, r.symbol? i = some s ∧ s.qualifiedName = n := by
  have hbefore := Registry.wellFormed_after history
  have hafter := hbefore.analyze source d text tree
  have hreflects := hbefore.reflects_analyze source d text tree
  rw [h] at hafter hreflects
  exact ⟨hreflects.answers hafter (hbefore.isSome_kind?_of_analyze h),
    hbefore.isSome_lookup?_analyze_iff h⟩

/-- A rule with a parameter, an unknown name and an action, in a grammar whose terminal another
document takes for an action. -/
theorem answers_of_analyze_mistaken :
    let history := [Registry.Event.operation (.resolve "A.T"),
      .operation (.setKind ⟨1⟩ ⟨0⟩ .action none)]
    let tree : Tree := ⟨[⟨⟨"A", ⟨0, 1⟩⟩, [], [], [.terminal ⟨"T", ⟨2, 3⟩⟩ (.atom ⟨"x", ⟨5, 6⟩⟩)],
      [⟨⟨"R", ⟨7, 8⟩⟩, [⟨"p", ⟨9, 10⟩⟩],
        .sequence [.name ⟨"p", ⟨13, 14⟩⟩, .name ⟨"q", ⟨15, 16⟩⟩, .action ⟨"c", ⟨17, 18⟩⟩]⟩]⟩]⟩
    ∃ a r, analyze "hime" (.after history) ⟨0⟩ "A(T->x R<p>->p q c)" tree = (.ok a, r) ∧
      a.hits.length = 6 ∧ a.diagnostics.length = 1 ∧ r.Answers ⟨0⟩ a ∧
      ∀ n, (r.lookup? n).isSome = true ↔
        ((Registry.after history).lookup? n).isSome = true ∨
          ∃ i ∈ a.symbols, ∃ s, r.symbol? i = some s ∧ s.qualifiedName = n := by
  intro history tree
  have hmistaken : (analyze "hime" (.after history) ⟨0⟩ "A(T->x R<p>->p q c)"
      tree).1.toOption.any (fun a => a.hits.length = 6 ∧ a.diagnostics.length = 1) = true := by
    decide +kernel
  obtain ⟨a, r, h, hfound⟩ := exists_eq_ok_of_any hmistaken
  obtain ⟨hhits, hdiagnostics⟩ := of_decide_eq_true hfound
  exact ⟨a, r, h, hhits, hdiagnostics, answers_of_analyze h⟩

end GrammarIndex
