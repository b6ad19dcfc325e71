import GrammarIndex.Proofs.Analysis.Reanalysis

/-!
# What a symbol hears

A move of a pass speaks of one name, and the symbol of that name changes.  In a registry in
which all names of a pass have been mentioned before, nothing else happens: every symbol
hears all moves, one after the other, takes those that are addressed to it, and stays in its
place.  A registry can always be brought to that state, for a pass does the same whether its
names were mentioned before or not.

## Main definitions

* `Symbol.hear`, `Symbol.hearAll` — a symbol after a move, and after several.
* `Registry.ChangedBy` — every symbol was changed, each in its place.
* `analysisMoves` — the moves of an analysis.

## Main results

* `Pass.changedBy_perform`, `Pass.changedBy_play` — **where all names are known, the registry
  after some moves is the registry with every symbol after these moves.**
* `Registry.WellFormed.changedBy_analyze` — the same of an analysis.
* `Registry.WellFormed.analyze_mention` — an analysis does the same where its names were
  mentioned before, and other names after them.
-/

namespace GrammarIndex

namespace Symbol

/-- The symbol after a move of a document, where names have these handles. -/
def hear (handleOf : String → Option SymbolId) (d : DocumentId) (s : Symbol) : Move → Symbol
  | .state name kind owner =>
    if s.qualifiedName = name then s.state d ⟨kind, owner.bind handleOf⟩ else s
  | .suggest name kind owner =>
    if s.qualifiedName = name then
      if s.kind?.all (· = kind) then s.state d ⟨kind, owner.bind handleOf⟩ else s
    else s
  | .define name range => if s.qualifiedName = name then s.addDefinition d range else s
  | .refer name range => if s.qualifiedName = name then s.addReference d range else s
  | .note _ _ _ => s
  | .rescope _ => s

/-- The symbol after several moves. -/
def hearAll (handleOf : String → Option SymbolId) (d : DocumentId) (s : Symbol)
    (ms : List Move) : Symbol :=
  ms.foldl (hear handleOf d) s

variable (handleOf : String → Option SymbolId) (d : DocumentId) (s : Symbol)

@[simp] theorem hearAll_nil : s.hearAll handleOf d [] = s := rfl

theorem hearAll_cons (m : Move) (ms : List Move) :
    s.hearAll handleOf d (m :: ms) = (s.hear handleOf d m).hearAll handleOf d ms := rfl

@[simp] theorem qualifiedName_hear (m : Move) :
    (s.hear handleOf d m).qualifiedName = s.qualifiedName := by
  cases m with
  | state | define | refer => simp only [hear]; split <;> simp [addDefinition, addReference]
  | suggest =>
    simp only [hear]
    split
    · split <;> simp
    · rfl
  | note | rescope => rfl

@[simp] theorem qualifiedName_hearAll (ms : List Move) :
    (s.hearAll handleOf d ms).qualifiedName = s.qualifiedName := by
  induction ms generalizing s with
  | nil => rfl
  | cons m ms ih => rw [hearAll_cons, ih, qualifiedName_hear]

/-- A symbol takes no notice of a move that is not addressed to it. -/
theorem hear_of_not_mem {s : Symbol} {m : Move} (h : s.qualifiedName ∉ m.names) :
    s.hear handleOf d m = s := by
  cases m with
  | state | suggest | define | refer => exact if_neg fun heq => h (List.mem_singleton.mpr heq)
  | note | rescope => rfl

theorem hearAll_of_forall_not_mem {s : Symbol} {ms : List Move}
    (h : ∀ m ∈ ms, s.qualifiedName ∉ m.names) : s.hearAll handleOf d ms = s := by
  induction ms with
  | nil => rfl
  | cons m ms ih =>
    rw [hearAll_cons, hear_of_not_mem _ _ (h m List.mem_cons_self)]
    exact ih fun m' hm' => h m' (List.mem_cons_of_mem m hm')

end Symbol

/-! ### Registries that know the names -/

namespace Registry

/-- A registry in which every symbol was changed in its place, and nothing else that a
look-up can see. -/
structure ChangedBy (r r' : Registry) (change : Symbol → Symbol) : Prop where
  /-- Every name has its handle. -/
  lookup? : r'.lookup? = r.lookup?
  /-- Every symbol was changed. -/
  symbol? : ∀ i, r'.symbol? i = (r.symbol? i).map change

namespace ChangedBy

variable {r r' r'' : Registry} {change change' : Symbol → Symbol}

theorem refl (r : Registry) : r.ChangedBy r id := ⟨rfl, fun _ => Option.map_id'.symm⟩

theorem trans (h : r.ChangedBy r' change) (h' : r'.ChangedBy r'' change') :
    r.ChangedBy r'' (change' ∘ change) where
  lookup? := h'.lookup?.trans h.lookup?
  symbol? := fun i => by rw [h'.symbol?, h.symbol?, Option.map_map]

theorem symbolNamed? (h : r.ChangedBy r' change) (name : String) :
    r'.symbolNamed? name = (r.symbolNamed? name).map change := by
  unfold Registry.symbolNamed?
  rw [h.lookup?]
  cases r.lookup? name with
  | none => rfl
  | some i => exact h.symbol? i

end ChangedBy

/-- A change that is written at the handle of a name is a change of every symbol of that
name. -/
theorem WellFormed.changedBy_write {r : Registry} (h : r.WellFormed) {name : String}
    {j : SymbolId} (hj : r.lookup? name = some j) (d : DocumentId) (change : Symbol → Symbol) :
    r.ChangedBy (r.write d j change) fun s => if s.qualifiedName = name then change s else s := by
  refine ⟨funext fun _ => lookup?_write .., fun i => ?_⟩
  obtain ⟨t, ht, hname⟩ := h.lookup?_eq_some_iff.mp hj
  rw [symbol?_write]
  cases hs : r.symbol? i with
  | none => simp
  | some s =>
    have hiff : j = i ↔ s.qualifiedName = name := by
      rw [← hname, h.qualifiedName_inj hs ht, eq_comm]
    by_cases hji : j = i
    · simp [hji, hiff.mp hji]
    · simp [hji, mt hiff.mpr hji]

/-- A statement at a use is one more change: whether it is taken depends on the symbol of the
name, and no other symbol has that name. -/
theorem WellFormed.changedBy_setKindIfUnset {r : Registry} (h : r.WellFormed) {name : String}
    {j : SymbolId} (hj : r.lookup? name = some j) (d : DocumentId) (kind : Kind)
    (parent : Option SymbolId) :
    r.ChangedBy (r.setKindIfUnset d j kind parent).2 fun s =>
      if s.qualifiedName = name then
        if s.kind?.all (· = kind) then s.state d ⟨kind, parent⟩ else s
      else s := by
  obtain ⟨t, ht, hname⟩ := h.lookup?_eq_some_iff.mp hj
  -- names are unique, and so the symbol at the handle is the one of the name
  have hkind : ∀ {i : SymbolId} {s : Symbol}, r.symbol? i = some s → s.qualifiedName = name →
      r.kind? j = s.kind? := by
    intro i s hs hs_name
    rw [(h.qualifiedName_inj ht hs).mp (hname.trans hs_name.symm), kind?, hs, Option.bind_some]
  unfold setKindIfUnset
  split
  · next haccepts =>
    have hwrite := h.changedBy_write hj d (·.state d ⟨kind, parent⟩)
    refine ⟨hwrite.lookup?, fun i => (hwrite.symbol? i).trans (Option.map_congr fun s hs => ?_)⟩
    by_cases hs_name : s.qualifiedName = name
    · rw [hkind hs hs_name] at haccepts
      simp only [if_pos hs_name, if_pos haccepts]
    · simp only [if_neg hs_name]
  · next hrefuses =>
    refine ⟨rfl, fun i => ((Option.map_congr fun s hs => ?_).trans Option.map_id').symm⟩
    by_cases hs_name : s.qualifiedName = name
    · rw [hkind hs hs_name] at hrefuses
      simp only [if_pos hs_name, if_neg hrefuses]
    · simp only [if_neg hs_name]

end Registry

namespace Pass

variable {p : Pass}

/-- A name that is known resolves to its handle, and nothing changes. -/
theorem resolve_of_lookup? {name : String} {i : SymbolId}
    (h : p.registry.lookup? name = some i) : p.resolve name = (i, p) := by
  rw [resolve, Registry.resolve_of_lookup? h]

/-- **Where its name is known, a move is heard by every symbol**, and nothing else happens. -/
theorem changedBy_perform (h : p.registry.WellFormed) {m : Move}
    (hknown : ∀ name ∈ m.names, p.Knows name) :
    p.registry.ChangedBy (p.perform m).registry
      (·.hear p.registry.lookup? p.document m) := by
  cases m with
  | state name kind owner =>
    obtain ⟨j, hj⟩ := hknown name (List.mem_singleton_self name)
    simp only [perform, declare, Registry.resolve_of_lookup? hj, Registry.setKind]
    exact h.changedBy_write hj _ _
  | suggest name kind owner =>
    obtain ⟨j, hj⟩ := hknown name (List.mem_singleton_self name)
    simp only [perform, declareIfUnset, Registry.resolve_of_lookup? hj]
    exact h.changedBy_setKindIfUnset hj _ _ _
  | define name range =>
    obtain ⟨j, hj⟩ := hknown name (List.mem_singleton_self name)
    simp only [perform, resolve_of_lookup? hj, addDefinition, Registry.addDefinition]
    exact h.changedBy_write hj _ _
  | refer name range =>
    obtain ⟨j, hj⟩ := hknown name (List.mem_singleton_self name)
    simp only [perform, resolve_of_lookup? hj, addReference, Registry.addReference]
    exact h.changedBy_write hj _ _
  | note => exact .refl p.registry
  | rescope => exact .refl p.registry

/-- **Where their names are known, several moves are heard by every symbol.** -/
theorem changedBy_play (h : p.registry.WellFormed) {ms : List Move}
    (hknown : ∀ name ∈ Move.namesOfAll ms, p.Knows name) :
    p.registry.ChangedBy (p.play ms).registry
      (·.hearAll p.registry.lookup? p.document ms) := by
  induction ms generalizing p with
  | nil => exact .refl p.registry
  | cons m ms ih =>
    have hhead : ∀ name ∈ m.names, p.Knows name :=
      fun name hname => hknown name (List.mem_append_left _ hname)
    have hfirst := changedBy_perform h hhead
    have hrest := ih (wellFormed_perform h m) fun name hname =>
      (hknown name (List.mem_append_right _ hname)).play [m]
    rw [hfirst.lookup?, document_perform] at hrest
    exact hfirst.trans hrest

end Pass

/-! ### Analyses -/

/-- The moves of an analysis, as far as it comes. -/
def analysisMoves (source : String) (r : Registry) (d : DocumentId) (text : String)
    (tree : Tree) : List Move :=
  (analysisStart source r d text).walkMoves tree.occurrences

namespace Registry

variable {r : Registry} {source : String} {d : DocumentId} {text : String} {tree : Tree}
  {a : Analysis}

/-- The registry has all names that the analysis mentions. -/
def KnowsAll (r : Registry) (names : List String) : Prop :=
  ∀ name ∈ names, (r.lookup? name).isSome = true

/-- **An analysis is heard by every symbol**, if the registry knows its names. -/
theorem WellFormed.changedBy_analyze (h : r.WellFormed)
    (hok : (GrammarIndex.analyze source r d text tree).1 = .ok a)
    (hknown : r.KnowsAll (analysisNames source r d text tree)) :
    (r.forget d).ChangedBy (GrammarIndex.analyze source r d text tree).2
      (·.hearAll r.lookup? d (analysisMoves source r d text tree)) := by
  have hplayed : (GrammarIndex.analyze source r d text tree).2 =
      ((analysisStart source r d text).play (analysisMoves source r d text tree)).registry := by
    have hreached := Pass.reached_walk (analysisStart source r d text) tree.occurrences
    rw [analyze_eq] at hok ⊢
    cases hwalk : (analysisStart source r d text).walk tree.occurrences with
    | error stopped =>
      rw [hwalk] at hok
      exact absurd hok (by simp)
    | ok p =>
      rw [hwalk] at hreached
      exact congrArg Pass.registry hreached
  rw [hplayed]
  exact Pass.changedBy_play (p := analysisStart source r d text) (h.forget d) fun name hname =>
    Option.isSome_iff_exists.mp (hknown name hname)

/-- An analysis does the same where its names were mentioned before, and other names after
them. -/
theorem WellFormed.analyze_mention (h : r.WellFormed)
    (hok : (GrammarIndex.analyze source r d text tree).1 = .ok a) (names : List String) :
    GrammarIndex.analyze source (r.mention (analysisNames source r d text tree ++ names)) d text
        tree =
      (.ok a, (GrammarIndex.analyze source r d text tree).2.mention names) := by
  have hstart : analysisStart source (r.mention (analysisNames source r d text tree ++ names)) d
      text = (analysisStart source r d text).mention
        (analysisNames source r d text tree ++ names) := by
    unfold analysisStart Pass.start Pass.mention
    rw [forget_mention]
  have hwalk := Pass.walk_mention (p := analysisStart source r d text) (h.forget d) (by simp)
    tree.ownersFirst_occurrences names
  rw [analyze_eq, hstart, analysisNames, hwalk]
  rw [analyze_eq] at hok ⊢
  cases hp : (analysisStart source r d text).walk tree.occurrences with
  | error stopped =>
    rw [hp] at hok
    exact absurd hok (by simp)
  | ok p =>
    rw [hp] at hok
    have ha : p.result = a := Except.ok.inj hok
    rw [← ha]
    rfl

end Registry

end GrammarIndex
