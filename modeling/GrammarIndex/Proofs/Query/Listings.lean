import GrammarIndex.Proofs.Query.Hits
import GrammarIndex.Proofs.Sorting
import GrammarIndex.Proofs.Symbol.Places
import GrammarIndex.Query.Outline

/-!
# Outline, search and lenses

A search goes through all symbols, an outline through those that the index by document lists,
and the lenses pick the grammars among these by themselves.  All three list the same definitions:
each is one list of all definitions, with some picked and then sorted, and picking commutes with
sorting.

## Main definitions

* `Registry.definitions` — every definition of every symbol.
* `Registry.Lists` — what is a definition, told without going through the symbols.
* `OccursIgnoringCase` — a query occurs in a name, told without the search.
* `Registry.ListingsAgree` — what the three lists owe one another.

## Main results

* `Registry.workspaceSymbols_eq`, `Registry.WellFormed.documentSymbols_eq`,
  `Registry.WellFormed.codeLenses_eq` — the three lists, each by picking and sorting.
* `Registry.listingsAgree_after` — **outline, search and lenses agree after every history.**
* `Registry.workspaceSymbols_refine` — **a longer query only removes definitions.**
-/

namespace GrammarIndex

/-! ### The order of a search -/

namespace SearchKey

/-- The strict order that belongs to `≤`. -/
instance : LT SearchKey where
  lt a b := a.name < b.name ∨ a.name = b.name ∧ a.location < b.location

instance : Std.IsLinearOrder SearchKey :=
  isLinearOrder_of_lex SearchKey.name SearchKey.location (fun _ _ => Iff.rfl)
    fun a b hname hlocation => by cases a; cases b; cases hname; cases hlocation; rfl

instance : Std.LawfulOrderLT SearchKey :=
  lawfulOrderLT_of_lex SearchKey.name SearchKey.location (fun _ _ => Iff.rfl) fun _ _ => Iff.rfl

end SearchKey

/-- The lens above a definition, in the document at `uri`: it compiles what is defined there. -/
def SymbolInfo.lens (uri : String) (info : SymbolInfo) : CodeLens where
  range := info.location.range
  title := "Compile grammar " ++ info.qualifiedName
  command := "compile"
  arguments := [uri, info.qualifiedName]

/-! ### Queries -/

/-- Some part of the name is the query, but for the case of ASCII letters. -/
def OccursIgnoringCase (query name : String) : Prop :=
  ∃ part, part <:+: name.toList ∧ part.map Char.toLower = query.toList.map Char.toLower

namespace Registry

theorem occursIn_iff {pattern text : List Char} :
    occursIn pattern text = true ↔ pattern <:+: text := by
  induction text with
  | nil => simp [occursIn]
  | cons c cs ih =>
    rw [occursIn, Bool.or_eq_true, ih, List.isPrefixOf_iff_prefix, List.infix_cons_iff]

theorem occursIgnoringCase_iff {query name : String} :
    OccursIgnoringCase query name ↔ lowercased query <:+: lowercased name := by
  rw [lowercased, lowercased, List.infix_map_iff]
  exact exists_congr fun part => and_congr_right fun _ => eq_comm

theorem matchesQuery_iff {query name : String} :
    matchesQuery query name = true ↔ OccursIgnoringCase query name := by
  rw [matchesQuery, occursIn_iff, occursIgnoringCase_iff]

@[simp] theorem matchesQuery_empty (name : String) : matchesQuery "" name = true :=
  matchesQuery_iff.mpr ⟨[], List.nil_infix, rfl⟩

/-- What occurs in a query occurs wherever the query does. -/
theorem matchesQuery_trans {query query' name : String} (h : OccursIgnoringCase query query')
    (h' : matchesQuery query' name = true) : matchesQuery query name = true := by
  rw [matchesQuery, occursIn_iff] at h' ⊢
  exact (occursIgnoringCase_iff.mp h).trans h'

variable {r : Registry} {d : DocumentId}

/-! ### The definitions of a symbol -/

theorem mem_infosAt_iff {s : Symbol} {places : List Location} {info : SymbolInfo} :
    info ∈ r.infosAt s places ↔ ∃ kind, s.kind? = some kind ∧ ∃ place ∈ places,
      ⟨r.displayName s, s.qualifiedName, kind, place, r.containerOf? s⟩ = info := by
  unfold infosAt
  cases s.kind? <;> simp

@[simp] theorem infosAt_nil (r : Registry) (s : Symbol) : r.infosAt s [] = [] := by
  unfold infosAt
  cases s.kind? <;> rfl

/-- To pick definitions by their places is to pick the places. -/
theorem filter_infosAt (r : Registry) (s : Symbol) (places : List Location) (p : Location → Bool) :
    (r.infosAt s places).filter (fun info => p info.location) = r.infosAt s (places.filter p) := by
  unfold infosAt
  cases s.kind? <;> simp [List.filter_map, Function.comp_def]

/-! ### All definitions -/

/-- Every definition of every symbol, in the order of the handles. -/
def definitions (r : Registry) : List SymbolInfo :=
  r.symbols.flatMap fun s => r.infosAt s s.definitionLocations

/-- What is listed: a place at which a symbol with a kind is defined. -/
inductive Lists (r : Registry) : SymbolInfo → Prop
  /-- A document defines the symbol at the place. -/
  | definition {i : SymbolId} {s : Symbol} {kind : Kind} {place : Location}
    (symbol : r.symbol? i = some s) (kind_eq : s.kind? = some kind)
    (defined : place.range ∈ s.definitionsIn place.document) :
    Lists r ⟨r.displayName s, s.qualifiedName, kind, place, r.containerOf? s⟩

theorem WellFormed.mem_definitions_iff (h : r.WellFormed) {info : SymbolInfo} :
    info ∈ r.definitions ↔ r.Lists info := by
  have hplace : ∀ {i : SymbolId} {s : Symbol} {place : Location}, r.symbol? i = some s →
      (place ∈ s.definitionLocations ↔ place.range ∈ s.definitionsIn place.document) :=
    fun hs => Symbol.mem_locations_iff (h.symbol hs).definitions.keys_nodup
  simp only [definitions, List.mem_flatMap, mem_infosAt_iff]
  constructor
  · rintro ⟨s, hs, kind, hkind, place, hdefined, rfl⟩
    have hs := h.symbol?_of_mem hs
    exact .definition hs hkind ((hplace hs).mp hdefined)
  · rintro ⟨hs, hkind, hdefined⟩
    exact ⟨_, List.mem_of_getElem? hs, _, hkind, _, (hplace hs).mpr hdefined, rfl⟩

/-- No definition is listed twice: the places of a symbol are distinct, and so are the names of
symbols. -/
theorem WellFormed.nodup_searchKey_definitions (h : r.WellFormed) :
    (r.definitions.map (·.searchKey)).Nodup := by
  have hkey : ∀ {s : Symbol} {key : SearchKey},
      key ∈ (r.infosAt s s.definitionLocations).map (·.searchKey) → key.name = s.qualifiedName := by
    intro s key hmem
    obtain ⟨info, hinfo, rfl⟩ := List.mem_map.mp hmem
    obtain ⟨kind, -, place, -, rfl⟩ := mem_infosAt_iff.mp hinfo
    rfl
  rw [definitions, List.map_flatMap, List.nodup_flatMap]
  constructor
  · -- one symbol is defined at different places
    intro s hs
    unfold infosAt
    cases s.kind? with
    | none => exact List.nodup_nil
    | some kind =>
      rw [List.map_map]
      have hplaces := Symbol.nodup_locations (h.symbol (h.symbol?_of_mem hs)).definitions
      exact hplaces.map fun _ _ heq => congrArg SearchKey.location heq
  · -- different symbols have different names
    refine h.pairwise_symbols.imp_of_mem fun {s t} hs ht hlt key hkeys hkeyt => ?_
    have hid : s.id = t.id :=
      (h.qualifiedName_inj (h.symbol?_of_mem hs) (h.symbol?_of_mem ht)).mp
        ((hkey hkeys).symm.trans (hkey hkeyt))
    rw [hid] at hlt
    exact absurd hlt (Nat.lt_irrefl _)

/-! ### Three lists -/

/-- Elements that have nothing to offer may be left out. -/
theorem flatMap_filter {α β : Type} {as : List α} {p : α → Bool} {f : α → List β}
    (h : ∀ a ∈ as, p a = false → f a = []) : (as.filter p).flatMap f = as.flatMap f := by
  induction as with
  | nil => rfl
  | cons a as ih =>
    have ih := ih fun b hb => h b (List.mem_cons_of_mem a hb)
    cases ha : p a with
    | false =>
      rw [List.filter_cons_of_neg (by simp [ha]), ih, List.flatMap_cons,
        h a List.mem_cons_self ha, List.nil_append]
    | true => rw [List.filter_cons_of_pos ha, List.flatMap_cons, List.flatMap_cons, ih]

/-- A search goes through all definitions. -/
theorem workspaceSymbols_eq (r : Registry) (query : String) :
    r.workspaceSymbols query =
      sortOn (·.searchKey) (r.definitions.filter fun info => matchesQuery query info.name) := by
  rw [workspaceSymbols, knownSymbols, flatMap_filter fun s _ hs => ?_, definitions]
  have hkind : s.kind? = none := by simpa using hs
  rw [infosAt, hkind]

theorem workspaceSymbols_empty (r : Registry) :
    r.workspaceSymbols "" = sortOn (·.searchKey) r.definitions := by
  simp [workspaceSymbols_eq]

/-- An outline goes through all definitions as well, though it looks only at the symbols that the
index by document lists. -/
theorem WellFormed.documentSymbols_eq (h : r.WellFormed) (d : DocumentId) :
    r.documentSymbols d =
      sortOn (·.location.range) (r.definitions.filter fun info => info.location.document = d) := by
  rw [documentSymbols, symbolsIn, flatMap_filter fun s hs hunlisted => ?_, definitions,
    List.filter_flatMap]
  · refine congrArg _ (List.flatMap_congr fun s _ => ?_)
    exact (filter_infosAt r s s.definitionLocations fun place => place.document = d).symm
  · -- a symbol that is not listed has no range in the document
    have hs := h.symbol?_of_mem hs
    have hnone : s.definitionsIn d = [] := by
      refine List.eq_nil_iff_forall_not_mem.mpr fun range hrange => ?_
      have hspoken := Symbol.spokenOfBy_of_mem (List.mem_append_left _ hrange)
      exact absurd (h.mem_idsIn_iff.mpr ⟨s, hs, hspoken⟩) (by simpa using hunlisted)
    rw [Symbol.definitionLocations, Symbol.filter_locations (h.symbol hs).definitions.keys_nodup,
      ← Symbol.definitionsIn, hnone, List.map_nil, infosAt_nil]

/-- An outline lists what is defined in the document. -/
theorem WellFormed.mem_documentSymbols_iff (h : r.WellFormed) {info : SymbolInfo} :
    info ∈ r.documentSymbols d ↔ r.Lists info ∧ info.location.document = d := by
  rw [h.documentSymbols_eq, mem_sortOn, List.mem_filter, h.mem_definitions_iff, decide_eq_true_iff]

/-- The lens above a definition, if it is a grammar. -/
theorem map_lens_infosAt (r : Registry) (s : Symbol) (ranges : List Range) (d : DocumentId)
    (uri : String) :
    ((r.infosAt s (ranges.map (⟨d, ·⟩))).filter fun info => info.kind = .grammar).map (·.lens uri) =
      if s.kind? = some .grammar then ranges.map (.compile uri s.qualifiedName) else [] := by
  unfold infosAt
  cases s.kind? with
  | none => rfl
  | some kind =>
    by_cases hkind : kind = .grammar <;>
      simp [hkind, SymbolInfo.lens, CodeLens.compile, compileCommand, List.filter_map,
        Function.comp_def]

/-- The lenses are those above the grammars of the outline, though they are picked by symbols
and not by definitions. -/
theorem WellFormed.codeLenses_eq (h : r.WellFormed) (d : DocumentId) (uri : String) :
    r.codeLenses d uri =
      ((r.documentSymbols d).filter fun info => info.kind = .grammar).map (·.lens uri) := by
  rw [documentSymbols, filter_sortOn,
    map_sortOn (·.location.range) (·.range) (SymbolInfo.lens uri) fun _ _ => rfl,
    List.filter_flatMap, List.map_flatMap, codeLenses]
  refine congrArg _ ?_
  -- symbol by symbol: a grammar gives a lens for each definition, and any other symbol gives none
  have hlens : ∀ s ∈ r.symbolsIn d,
      ((r.infosAt s (s.definitionLocations.filter fun place => place.document = d)).filter
          fun info => info.kind = .grammar).map (·.lens uri) =
        if s.kind? = some .grammar then (s.definitionsIn d).map (.compile uri s.qualifiedName)
        else [] := by
    intro s hs
    have hs := h.symbol?_of_mem_symbolsIn hs
    rw [Symbol.definitionLocations, Symbol.filter_locations (h.symbol hs).definitions.keys_nodup,
      map_lens_infosAt, Symbol.definitionsIn]
  rw [List.flatMap_congr hlens, ← flatMap_filter (p := fun s : Symbol => s.kind? = some .grammar)
    fun s _ hother => if_neg (of_decide_eq_false hother)]
  refine List.flatMap_congr fun s hs => ?_
  rw [if_pos (of_decide_eq_true (List.mem_filter.mp hs).2)]

/-! ### The three lists agree -/

/-- The outline, the search and the lenses of a registry list the same definitions. -/
structure ListingsAgree (r : Registry) : Prop where
  /-- The empty query finds every place at which a symbol with a kind is defined, and nothing
  else. -/
  mem_workspaceSymbols_iff : ∀ info, info ∈ r.workspaceSymbols "" ↔ r.Lists info
  /-- It finds no place of a symbol twice. -/
  nodup : ((r.workspaceSymbols "").map (·.searchKey)).Nodup
  /-- An outline is what the empty query finds in the document, -/
  outline_perm : ∀ d, (r.documentSymbols d).Perm
    ((r.workspaceSymbols "").filter fun info => info.location.document = d)
  /-- in ascending order of ranges. -/
  outline_ascends : ∀ d,
    (r.documentSymbols d).Pairwise fun a b => a.location.range ≤ b.location.range
  /-- The lenses are those above the grammars of the outline, in the same order. -/
  lenses : ∀ d uri, r.codeLenses d uri =
    ((r.documentSymbols d).filter fun info => info.kind = .grammar).map (·.lens uri)

theorem WellFormed.listingsAgree (h : r.WellFormed) : r.ListingsAgree where
  mem_workspaceSymbols_iff info := by
    rw [workspaceSymbols_empty, mem_sortOn, h.mem_definitions_iff]
  nodup := by
    rw [workspaceSymbols_empty]
    exact ((sortOn_perm _ _).map _).nodup_iff.mpr h.nodup_searchKey_definitions
  outline_perm d := by
    rw [h.documentSymbols_eq, workspaceSymbols_empty]
    exact (sortOn_perm _ _).trans ((sortOn_perm _ _).filter _).symm
  outline_ascends d := pairwise_le_sortOn _ _
  lenses := h.codeLenses_eq

/-- **Outline, search and lenses list the same definitions**, whatever happened to the
registry. -/
theorem listingsAgree_after (history : List Event) : (after history).ListingsAgree :=
  (wellFormed_after history).listingsAgree

/-! ### Longer queries -/

theorem WellFormed.pairwise_workspaceSymbols (h : r.WellFormed) (query : String) :
    (r.workspaceSymbols query).Pairwise fun a b => a.searchKey < b.searchKey := by
  rw [workspaceSymbols_eq]
  exact pairwise_lt_sortOn _ (h.nodup_searchKey_definitions.sublist (List.filter_sublist.map _))

/-- To search is to pick what matches from what the empty query finds. -/
theorem workspaceSymbols_eq_filter (r : Registry) (query : String) :
    r.workspaceSymbols query =
      (r.workspaceSymbols "").filter fun info => matchesQuery query info.name := by
  rw [workspaceSymbols_empty, filter_sortOn, workspaceSymbols_eq]

theorem mem_workspaceSymbols_iff {query : String} {info : SymbolInfo} :
    info ∈ r.workspaceSymbols query ↔
      info ∈ r.workspaceSymbols "" ∧ OccursIgnoringCase query info.name := by
  rw [workspaceSymbols_eq_filter, List.mem_filter, matchesQuery_iff]

/-- What a longer query finds is found by the shorter one, in the same order. -/
theorem sublist_workspaceSymbols (r : Registry) {query query' : String}
    (h : OccursIgnoringCase query query') :
    (r.workspaceSymbols query').Sublist (r.workspaceSymbols query) := by
  rw [workspaceSymbols_eq_filter r query, workspaceSymbols_eq_filter r query']
  exact List.monotone_filter_right _ fun info => matchesQuery_trans h

/-- **A longer query only removes definitions.**  If one query occurs in another, but for the
case of ASCII letters, whatever the longer one finds is found by the shorter one, in the same
order.  What a query finds strictly ascends by name and place, and it is the definitions in whose
displayed name the query occurs. -/
theorem workspaceSymbols_refine (history : List Event) {query query' : String}
    (h : OccursIgnoringCase query query') :
    let r := after history
    (r.workspaceSymbols query').Sublist (r.workspaceSymbols query) ∧
      (∀ q, (r.workspaceSymbols q).Pairwise fun a b => a.searchKey < b.searchKey) ∧
      ∀ info ∈ r.workspaceSymbols "",
        (info ∈ r.workspaceSymbols query ↔ OccursIgnoringCase query info.name) :=
  have hwf := wellFormed_after history
  ⟨sublist_workspaceSymbols _ h, hwf.pairwise_workspaceSymbols,
    fun _ hinfo => mem_workspaceSymbols_iff.trans (and_iff_right hinfo)⟩

/-- A grammar with a terminal, and a variable of it in another document. -/
def numbersAndSums : List Event :=
  [.operation (.resolve "G"),
    .operation (.setKind ⟨0⟩ ⟨0⟩ .grammar none),
    .operation (.addDefinition ⟨0⟩ ⟨0⟩ ⟨⟨0, 8⟩, ⟨0, 9⟩⟩),
    .operation (.resolve "G.NUMBER"),
    .operation (.setKind ⟨0⟩ ⟨1⟩ .terminal (some ⟨0⟩)),
    .operation (.addDefinition ⟨0⟩ ⟨1⟩ ⟨⟨2, 4⟩, ⟨2, 10⟩⟩),
    .operation (.resolve "G.sum"),
    .operation (.setKind ⟨1⟩ ⟨2⟩ .nonterminal (some ⟨0⟩)),
    .operation (.addDefinition ⟨1⟩ ⟨2⟩ ⟨⟨3, 4⟩, ⟨3, 7⟩⟩)]

/-- Two letters are found in both names, and two more only in one of them. -/
theorem workspaceSymbols_refine_numbersAndSums :
    let r := after numbersAndSums
    OccursIgnoringCase "uM" "Numb" ∧
      ((r.workspaceSymbols "uM").map (·.name)).Perm ["NUMBER", "sum"] ∧
      ((r.workspaceSymbols "Numb").map (·.name)).Perm ["NUMBER"] ∧
      (r.workspaceSymbols "Numb").Sublist (r.workspaceSymbols "uM") ∧
      (∀ q, (r.workspaceSymbols q).Pairwise fun a b => a.searchKey < b.searchKey) ∧
      ∀ info ∈ r.workspaceSymbols "",
        (info ∈ r.workspaceSymbols "uM" ↔ OccursIgnoringCase "uM" info.name) := by
  have hoccurs : OccursIgnoringCase "uM" "Numb" := matchesQuery_iff.mp (by decide +kernel)
  refine ⟨hoccurs, ?_, ?_, workspaceSymbols_refine numbersAndSums hoccurs⟩
  · rw [workspaceSymbols_eq]
    exact ((sortOn_perm _ _).map _).trans (.of_eq (by decide +kernel))
  · rw [workspaceSymbols_eq]
    exact ((sortOn_perm _ _).map _).trans (.of_eq (by decide +kernel))

end Registry

end GrammarIndex
