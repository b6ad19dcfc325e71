import GrammarIndex.Proofs.Analysis.Recorded
import GrammarIndex.Proofs.Analysis.Renaming

/-!
# Handles and names

An analysis tells symbols by handles and its view tells them by names.  In the registry that
the analysis leaves, the two belong together one by one: the ranges of a symbol are those of
its name, and where one view is the other after a renaming, the symbols of the two analyses
belong together one by one as well.

## Main definitions

* `Registry.Shown` — what an analysis leaves, and the view that it looks like.
* `Mention.to` — a mention under another handle.
* `Registry.Renamed` — a symbol of one registry is a symbol of another after the renaming.

## Main results

* `Registry.WellFormed.exists_view_of_analyze`, `Registry.exists_analyze_of_walk` — an analysis
  ends as its view does.
* `Registry.Shown.mem_ranges_iff` — the ranges of a symbol are those of its name.
* `Registry.Shown.exists_handles` — **where one view is the other after a renaming, one
  analysis is the other under other handles.**
-/

namespace GrammarIndex

private theorem forall₂_comp {α β γ : Type} {R : α → β → Prop} {S : β → γ → Prop} {as : List α}
    {bs : List β} {cs : List γ} (h : List.Forall₂ R as bs) (h' : List.Forall₂ S bs cs) :
    List.Forall₂ (Relation.Comp R S) as cs := by
  induction h generalizing cs with
  | nil =>
    cases h'
    exact .nil
  | cons hab _ ih =>
    obtain _ | ⟨hbc, hrest⟩ := h'
    exact .cons ⟨_, hab, hbc⟩ (ih hrest)

/-! ### Analyses and their views -/

namespace Registry

/-- What an analysis leaves looks like this view. -/
structure Shown (r : Registry) (a : Analysis) (w : View) : Prop where
  /-- The registry is well formed. -/
  wellFormed : r.WellFormed
  /-- Names have the kinds that the view knows. -/
  kindNamed? : r.kindNamed? = w.kindOf
  /-- The analysis reads as what the view has found. -/
  readsAs : r.ReadsAs a w.finding

/-- An analysis and its view end alike. -/
theorem WellFormed.shown_analyze {r₀ : Registry} (h : r₀.WellFormed) (source : String)
    (d : DocumentId) (text : String) (tree : Tree) :
    EndAlike (fun _ _ => True) (fun a w => Shown (GrammarIndex.analyze source r₀ d text tree).2 a w)
      (GrammarIndex.analyze source r₀ d text tree).1
      ((View.start (r₀.forget d).kindNamed? d text source).walk tree.occurrences) := by
  have hwalk := (Pass.Shows.start h source d text).walk tree.occurrences
  rw [analyze_eq]
  generalize (analysisStart source r₀ d text).walk tree.occurrences = outcome,
    View.walk _ tree.occurrences = viewed at hwalk ⊢
  cases hwalk with
  | error hfault => exact .error trivial
  | ok hshows =>
    exact .ok ⟨hshows.wellFormed, hshows.kindNamed?, hshows.definitions, hshows.references,
      congrArg DiagnosticLog.entries hshows.log⟩

variable {source text : String} {d : DocumentId} {tree : Tree} {r₀ r : Registry} {a : Analysis}
  {w : View}

theorem WellFormed.exists_view_of_analyze (h₀ : r₀.WellFormed)
    (h : GrammarIndex.analyze source r₀ d text tree = (.ok a, r)) :
    ∃ w, (View.start (r₀.forget d).kindNamed? d text source).walk tree.occurrences = .ok w ∧
      r.Shown a w := by
  have hend := h₀.shown_analyze source d text tree
  rw [h] at hend
  exact hend.exists_eq_ok

theorem exists_view_of_analyze (h : analyze source .empty d text tree = (.ok a, r)) :
    ∃ w, (View.start (fun _ => none) d text source).walk tree.occurrences = .ok w ∧
      r.Shown a w :=
  WellFormed.empty.exists_view_of_analyze h

theorem exists_analyze_of_walk
    (h : (View.start (fun _ => none) d text source).walk tree.occurrences = .ok w) :
    ∃ a r, analyze source .empty d text tree = (.ok a, r) ∧ r.Shown a w := by
  have hend := WellFormed.empty.shown_analyze source d text tree
  have hstart : (View.start (Registry.empty.forget d).kindNamed? d text source).walk
      tree.occurrences = .ok w := h
  rw [hstart] at hend
  obtain ⟨a, ha, hshown⟩ := hend.exists_ok_eq
  exact ⟨a, _, Prod.ext ha rfl, hshown⟩

/-- Whatever an analysis lists stands at the range of a token of the tree. -/
theorem WellFormed.exists_token_of_analyze (h₀ : r₀.WellFormed)
    (h : GrammarIndex.analyze source r₀ d text tree = (.ok a, r)) {m : Mention}
    (hm : m ∈ a.definitions ++ a.references) :
    ∃ o ∈ tree.occurrences, (LineIndex.ofText text).range? o.token.span = some m.range := by
  obtain ⟨w, hwalk, hshown⟩ := h₀.exists_view_of_analyze h
  obtain ⟨n, hn, -, hrange⟩ := exists_of_forall₂
    (List.rel_append hshown.readsAs.definitions hshown.readsAs.references) hm
  rw [hrange]
  exact (View.exists_range_of_walk hwalk hn).resolve_left List.not_mem_nil

/-- Whatever is listed for what the parser made of a text stands at the range of a token of the
tree.  Where there is no tree, nothing is listed. -/
theorem WellFormed.exists_token_of_analyzeParsed (h₀ : r₀.WellFormed)
    {parsed : Except ParseError Tree}
    (h : (GrammarIndex.analyzeParsed source r₀ d text parsed).1 = .ok a) {m : Mention}
    (hm : m ∈ a.definitions ++ a.references) :
    ∃ tree, parsed = .ok tree ∧
      ∃ o ∈ tree.occurrences, (LineIndex.ofText text).range? o.token.span = some m.range := by
  cases parsed with
  | error e =>
    have hempty : a = .empty d := (Except.ok.inj h).symm
    rw [hempty] at hm
    exact absurd hm List.not_mem_nil
  | ok tree =>
    have hanalyze : GrammarIndex.analyze source r₀ d text tree =
        (.ok a, (GrammarIndex.analyze source r₀ d text tree).2) := Prod.ext h rfl
    exact ⟨tree, rfl, h₀.exists_token_of_analyze hanalyze hm⟩

namespace Shown

variable {i : SymbolId} {s : Symbol}

/-- A handle belongs to a mention exactly where the name of its symbol is the name that the
view has. -/
theorem symbol_eq_iff (h : r.Shown a w) (hs : r.symbol? i = some s) {m : Mention}
    {n : NamedMention} (hread : r.Reads m n) : m.symbol = i ↔ n.name = s.qualifiedName := by
  obtain ⟨⟨t, ht, hname⟩, -⟩ := hread
  rw [← hname, h.wellFormed.qualifiedName_inj ht hs]

/-- The ranges of a symbol in a list of mentions are those of its name in the view. -/
theorem mem_rangesOf_iff (h : r.Shown a w) (hs : r.symbol? i = some s) {ms : List Mention}
    {ns : List NamedMention} (hread : List.Forall₂ r.Reads ms ns) {range : Range} :
    range ∈ Analysis.rangesOf i ms ↔ ⟨s.qualifiedName, range⟩ ∈ ns := by
  -- on the mentions and their names side by side
  induction hread with
  | nil => simp [Analysis.rangesOf]
  | @cons m n ms ns hread hrest ih =>
    have hhead : m.symbol = i ∧ m.range = range ↔
        (⟨s.qualifiedName, range⟩ : NamedMention) = n := by
      rw [h.symbol_eq_iff hs hread, hread.2]
      obtain ⟨name, range'⟩ := n
      rw [NamedMention.mk.injEq, eq_comm, @eq_comm _ range']
    rw [List.mem_cons, ← ih, ← hhead]
    simp [Analysis.rangesOf, or_and_right, exists_or]

/-- Where the registry has a symbol of the document is where the view has its name. -/
theorem mem_ranges_iff (h : r.Shown a w) {d : DocumentId} (hreflects : r.Reflects d a)
    (hs : r.symbol? i = some s) {range : Range} :
    range ∈ s.definitionsIn d ++ s.referencesIn d ↔ ⟨s.qualifiedName, range⟩ ∈ w.mentions := by
  -- the registry drops repeated ranges, which changes nothing about which ranges there are
  rw [hreflects.definitionsIn_eq hs, hreflects.referencesIn_eq hs, View.mentions,
    List.mem_append, List.mem_append, List.mem_eraseDups, List.mem_eraseDups]
  exact or_congr (h.mem_rangesOf_iff hs h.readsAs.definitions)
    (h.mem_rangesOf_iff hs h.readsAs.references)

/-- The view knows the kind of a symbol. -/
theorem kindOf_eq (h : r.Shown a w) (hs : r.symbol? i = some s) :
    w.kindOf s.qualifiedName = s.kind? := by
  have hlookup := h.wellFormed.lookup?_eq_some_iff.mpr ⟨s, hs, rfl⟩
  rw [← h.kindNamed?, Registry.kindNamed?, hlookup, Option.bind_some, kind?, hs, Option.bind_some]

/-- A symbol of the analysis is a symbol of the registry, and the view has its name. -/
theorem exists_mention (h : r.Shown a w) (hi : i ∈ a.symbols) :
    ∃ s range, r.symbol? i = some s ∧ ⟨s.qualifiedName, range⟩ ∈ w.mentions := by
  have hread : List.Forall₂ r.Reads (a.definitions ++ a.references) w.mentions :=
    List.rel_append h.readsAs.definitions h.readsAs.references
  obtain ⟨m, hm, rfl⟩ := List.mem_map.mp hi
  obtain ⟨n, hn, ⟨s, hs, hname⟩, -⟩ := exists_of_forall₂ hread hm
  refine ⟨s, n.range, hs, ?_⟩
  rw [hname]
  exact hn

end Shown

end Registry

/-! ### Handles after the renaming -/

/-- The mention with its symbol under another handle. -/
def Mention.to (σ : SymbolId → SymbolId) (m : Mention) : Mention := ⟨σ m.symbol, m.range⟩

namespace Registry

variable {ρ : Renaming} {r r' : Registry} {a a' : Analysis} {w w' : View} {g : String}

/-- The symbol `i` of a registry is the symbol `i'` of another after the renaming. -/
def Renamed (ρ : Renaming) (r r' : Registry) (i i' : SymbolId) : Prop :=
  ∃ s s', r.symbol? i = some s ∧ r'.symbol? i' = some s' ∧
    ρ.Carries s.qualifiedName s'.qualifiedName

/-- A symbol is renamed to one symbol, and no two symbols to the same. -/
theorem Renamed.eq_iff (h : r.WellFormed) (h' : r'.WellFormed) {i i' j j' : SymbolId}
    (hi : Renamed ρ r r' i i') (hj : Renamed ρ r r' j j') : i' = j' ↔ i = j := by
  obtain ⟨s, s', hs, hs', hcarries⟩ := hi
  obtain ⟨t, t', ht, ht', hcarries'⟩ := hj
  rw [← h'.qualifiedName_inj hs' ht', ← h.qualifiedName_inj hs ht]
  exact hcarries.renames.eq_iff hcarries'.renames

/-- Two analyses that look like views side by side agree entry by entry. -/
theorem forall₂_renamed {ms ms' : List Mention} {ns ns' : List NamedMention}
    (hread : List.Forall₂ r.Reads ms ns) (hread' : List.Forall₂ r'.Reads ms' ns')
    (hrenamed : List.Forall₂ (NamedMention.RenamedTo ρ) ns ns') :
    List.Forall₂ (fun m m' => Renamed ρ r r' m.symbol m'.symbol ∧ m'.range = m.range) ms ms' := by
  -- from the one analysis to its view, to the other view, and back to the other analysis
  refine (forall₂_comp (forall₂_comp hread hrenamed) hread'.flip).imp ?_
  rintro m m' ⟨n', ⟨n, ⟨⟨s, hs, hname⟩, hrange⟩, hcarries, hsame⟩, ⟨s', hs', hname'⟩, hrange'⟩
  refine ⟨⟨s, s', hs, hs', ?_⟩, ?_⟩
  · rw [hname, hname']
    exact hcarries
  · rw [hrange', hsame, hrange]

/-- **The symbols of two analyses that look like views side by side** are told apart alike, and
the second analysis has them at the same ranges. -/
theorem Shown.exists_handles (h : r.Shown a w) (h' : r'.Shown a' w')
    (hrenamed : w.RenamedTo ρ g w') :
    ∃ σ : SymbolId → SymbolId, a'.definitions = a.definitions.map (·.to σ) ∧
      a'.references = a.references.map (·.to σ) ∧
        ∀ i ∈ a.symbols, Renamed ρ r r' i (σ i) := by
  -- a handle that the analysis does not have may go anywhere
  have hexists : ∀ i, ∃ i', (∃ j, Renamed ρ r r' i j) → Renamed ρ r r' i i' := by
    intro i
    by_cases hi : ∃ j, Renamed ρ r r' i j
    · obtain ⟨j, hj⟩ := hi
      exact ⟨j, fun _ => hj⟩
    · exact ⟨i, fun hj => absurd hj hi⟩
  choose σ hσ using hexists
  have hmap : ∀ {ms ms' : List Mention},
      List.Forall₂ (fun m m' => Renamed ρ r r' m.symbol m'.symbol ∧ m'.range = m.range) ms ms' →
        ms' = ms.map (·.to σ) := by
    intro ms ms' hms
    induction hms with
    | nil => rfl
    | @cons m m' ms ms' hm _ ih =>
      have hsymbol : σ m.symbol = m'.symbol :=
        (Renamed.eq_iff h.wellFormed h'.wellFormed (hσ _ ⟨_, hm.1⟩) hm.1).mpr rfl
      rw [List.map_cons, ← ih, Mention.to, hsymbol, ← hm.2]
  -- pair by pair, in the order they were recorded
  have hdefinitions := forall₂_renamed h.readsAs.definitions h'.readsAs.definitions
    hrenamed.definitions
  have hreferences := forall₂_renamed h.readsAs.references h'.readsAs.references
    hrenamed.references
  refine ⟨σ, hmap hdefinitions, hmap hreferences, fun i hi => ?_⟩
  obtain ⟨m, hm, rfl⟩ := List.mem_map.mp hi
  obtain ⟨m', -, hpair, -⟩ := exists_of_forall₂ (List.rel_append hdefinitions hreferences) hm
  exact hσ _ ⟨_, hpair⟩

/-- The symbol that is renamed has the new name, and every other keeps its own. -/
theorem Renamed.name_eq (h : r.WellFormed) {i i' j : SymbolId} (hi : Renamed ρ r r' i i')
    {s : Symbol} (hs : r.symbol? j = some s)
    (hname : s.qualifiedName = joinPath (ρ.scope ++ [ρ.old])) :
    (r'.symbol? i').map (·.name) =
      if i = j then some ρ.new else (r.symbol? i).map (·.name) := by
  obtain ⟨t, t', ht, ht', hcarries⟩ := hi
  have hlast := hcarries.lastSegment_eq
  rw [← hname] at hlast
  simp only [h.qualifiedName_inj ht hs] at hlast
  rw [ht, ht', Option.map_some, Option.map_some, Symbol.name, Symbol.name, hlast]
  split <;> rfl

end Registry

end GrammarIndex
