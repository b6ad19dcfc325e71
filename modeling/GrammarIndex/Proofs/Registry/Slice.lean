import GrammarIndex.Analysis.Result
import GrammarIndex.Proofs.Registry.Mention

/-!
# The slice of a document

The registry keeps what all documents say, symbol by symbol.  Read the other way, it
holds a slice for each document: the ranges at which the document defines or
references each symbol.  An analysis lists the same things in the order in which they
came up.  The registry reflects the analysis when its slice is what the analysis
lists, repeated ranges dropped.

## Main definitions

* `Slice` — what is known of one symbol in one document.
* `Registry.slice`, `Analysis.slice` — the slice in the registry, and in an analysis.
* `Registry.Reflects` — the registry holds of a document what an analysis lists.
* `Registry.Silent` — the registry holds nothing of a document.

## Main results

* `Registry.slice_resolve`, `Registry.WellFormed.slice_forget`,
  `Registry.slice_addDefinition`, `Registry.slice_addReference` — a slice after each
  operation.
* `Registry.Reflects.mention`, `Registry.WellFormed.reflects_forget_iff` — **what
  happens elsewhere does not touch a slice.**
* `Registry.WellFormed.forget_of_silent` — a silent document is forgotten without a change.
-/

namespace GrammarIndex

/-- The ranges of one symbol in one document, without repetitions. -/
structure Slice where
  /-- The ranges at which the document defines the symbol. -/
  definitions : List Range
  /-- The ranges at which the document references the symbol. -/
  references : List Range
  deriving DecidableEq, Repr

namespace Slice

/-- Nothing is known. -/
def empty : Slice := ⟨[], []⟩

/-- The slice with one more definition. -/
def addDefinition (slice : Slice) (range : Range) : Slice :=
  { slice with definitions := addNew slice.definitions range }

/-- The slice with one more reference. -/
def addReference (slice : Slice) (range : Range) : Slice :=
  { slice with references := addNew slice.references range }

end Slice

/-- What a symbol holds of a document. -/
def Symbol.slice (s : Symbol) (d : DocumentId) : Slice :=
  ⟨s.definitionsIn d, s.referencesIn d⟩

/-- What an analysis lists for a symbol, repeated ranges dropped and the first of each
kept. -/
def Analysis.slice (a : Analysis) (i : SymbolId) : Slice :=
  ⟨(a.definitionsOf i).eraseDups, (a.referencesOf i).eraseDups⟩

/-- The symbols that occur in an analysis. -/
def Analysis.symbols (a : Analysis) : List SymbolId :=
  (a.definitions ++ a.references).map (·.symbol)

namespace Symbol

theorem slice_forget (s : Symbol) (d d' : DocumentId) :
    (s.forget d).slice d' = if d = d' then .empty else s.slice d' := by
  simp only [slice, definitionsIn_forget, referencesIn_forget]
  split <;> rfl

/-- The kinds that documents state are no part of a slice. -/
@[simp] theorem slice_state (s : Symbol) (d d' : DocumentId) (statement : Statement) :
    (s.state d statement).slice d' = s.slice d' := by
  unfold state
  split <;> rfl

theorem slice_addDefinition (s : Symbol) (d : DocumentId) (range : Range) :
    (s.addDefinition d range).slice d = (s.slice d).addDefinition range := by
  have hdefinitions :
      (s.addDefinition d range).definitionsIn d = addNew (s.definitionsIn d) range := by
    rw [definitionsIn_addDefinition, if_pos rfl]
  rw [slice, hdefinitions]
  rfl

theorem slice_addReference (s : Symbol) (d : DocumentId) (range : Range) :
    (s.addReference d range).slice d = (s.slice d).addReference range := by
  have hreferences :
      (s.addReference d range).referencesIn d = addNew (s.referencesIn d) range := by
    rw [referencesIn_addReference, if_pos rfl]
  rw [slice, hreferences]
  rfl

end Symbol

namespace Registry

/-- What the registry holds of a document at the symbol of a handle; nothing, if the
handle was never given out. -/
def slice (r : Registry) (d : DocumentId) (i : SymbolId) : Slice :=
  match r.symbol? i with
  | some s => s.slice d
  | none => .empty

/-- What the registry holds of a document is what an analysis lists. -/
structure Reflects (r : Registry) (d : DocumentId) (a : Analysis) : Prop where
  /-- Every symbol has the ranges that the analysis lists, the first of equal ones. -/
  slice_eq : ∀ i, r.slice d i = a.slice i
  /-- The document speaks of the symbols that occur in the analysis. -/
  mem_symbolsIn_iff : ∀ i, i ∈ (r.symbolsIn d).map (·.id) ↔ i ∈ a.symbols

/-- The registry holds nothing of a document: no kind, no definition, no reference. -/
structure Silent (r : Registry) (d : DocumentId) : Prop where
  /-- No symbol is listed for the document. -/
  symbolsIn_eq_nil : r.symbolsIn d = []
  /-- The document speaks of no symbol. -/
  not_spokenOfBy : ∀ {i : SymbolId} {s : Symbol}, r.symbol? i = some s → ¬ s.SpokenOfBy d

/-! ### Slices after an operation -/

theorem slice_of_symbol? {r : Registry} {i : SymbolId} {s : Symbol} (h : r.symbol? i = some s)
    (d : DocumentId) : r.slice d i = s.slice d := by
  rw [slice, h]

theorem slice_of_symbol?_eq_none {r : Registry} {i : SymbolId} (h : r.symbol? i = none)
    (d : DocumentId) : r.slice d i = .empty := by
  rw [slice, h]

/-- A placeholder holds nothing of any document. -/
@[simp] theorem slice_resolve (r : Registry) (name : String) (d : DocumentId) (i : SymbolId) :
    (r.resolve name).2.slice d i = r.slice d i := by
  have hsymbol := symbol?_resolve r name i
  split at hsymbol
  · next h =>
    have hfree : r.symbol? i = none := by rw [h.2]; exact symbol?_size r
    rw [slice_of_symbol? hsymbol, slice_of_symbol?_eq_none hfree]
    rfl
  · rw [slice, slice, hsymbol]

@[simp] theorem slice_mention (r : Registry) (names : List String) (d : DocumentId)
    (i : SymbolId) : (r.mention names).slice d i = r.slice d i := by
  induction names generalizing r with
  | nil => rfl
  | cons n names ih => rw [mention_cons, ih, slice_resolve]

@[simp] theorem idsIn_mention (r : Registry) (names : List String) (d : DocumentId) :
    (r.mention names).idsIn d = r.idsIn d := by
  induction names generalizing r with
  | nil => rfl
  | cons n names ih => rw [mention_cons, ih, idsIn_resolve]

theorem WellFormed.slice_forget {r : Registry} (h : r.WellFormed) (d d' : DocumentId)
    (i : SymbolId) : (r.forget d).slice d' i = if d = d' then .empty else r.slice d' i := by
  have hsymbol := h.symbol?_forget d i
  cases hs : r.symbol? i with
  | none =>
    rw [hs] at hsymbol
    rw [slice_of_symbol?_eq_none hsymbol, slice_of_symbol?_eq_none hs]
    split <;> rfl
  | some s =>
    rw [hs] at hsymbol
    rw [slice_of_symbol? hsymbol, slice_of_symbol? hs, Symbol.slice_forget]

/-- A change that does not reach the slices of symbols leaves those of the registry. -/
theorem slice_write_of_eq {d' : DocumentId} {change : Symbol → Symbol}
    (h : ∀ s : Symbol, (change s).slice d' = s.slice d') (r : Registry) (d : DocumentId)
    (i j : SymbolId) : (r.write d i change).slice d' j = r.slice d' j := by
  unfold slice
  rw [symbol?_write]
  by_cases hij : i = j
  · rw [if_pos hij]
    cases r.symbol? j with
    | none => rfl
    | some s => exact h s
  · rw [if_neg hij]

/-- A change that adds something to the slice of a symbol adds it to that of the
registry. -/
theorem slice_write_of_lt {r : Registry} {i : SymbolId} (hi : i.index < r.size)
    (d : DocumentId) (change : Symbol → Symbol) (add : Slice → Slice)
    (h : ∀ s : Symbol, (change s).slice d = add (s.slice d)) (j : SymbolId) :
    (r.write d i change).slice d j = if i = j then add (r.slice d i) else r.slice d j := by
  unfold slice
  rw [symbol?_write]
  by_cases hij : i = j
  · subst hij
    obtain ⟨s, hs⟩ := Option.isSome_iff_exists.mp (symbol?_isSome_iff.mpr hi)
    rw [if_pos rfl, if_pos rfl, hs]
    exact h s
  · rw [if_neg hij, if_neg hij]

theorem slice_addDefinition {r : Registry} {i : SymbolId} (hi : i.index < r.size)
    (d : DocumentId) (range : Range) (j : SymbolId) :
    (r.addDefinition d i range).slice d j =
      if i = j then (r.slice d i).addDefinition range else r.slice d j :=
  slice_write_of_lt hi d (·.addDefinition d range) (·.addDefinition range)
    (fun s => s.slice_addDefinition d range) j

theorem slice_addReference {r : Registry} {i : SymbolId} (hi : i.index < r.size)
    (d : DocumentId) (range : Range) (j : SymbolId) :
    (r.addReference d i range).slice d j =
      if i = j then (r.slice d i).addReference range else r.slice d j :=
  slice_write_of_lt hi d (·.addReference d range) (·.addReference range)
    (fun s => s.slice_addReference d range) j

/-! ### Reflected analyses -/

/-- The symbols of a document are those that the index by document lists. -/
theorem WellFormed.mem_symbolsIn_iff {r : Registry} (h : r.WellFormed) {d : DocumentId}
    {i : SymbolId} : i ∈ (r.symbolsIn d).map (·.id) ↔ i ∈ r.idsIn d := by
  simp only [symbolsIn, List.mem_map, List.mem_filter, decide_eq_true_eq]
  constructor
  · rintro ⟨s, ⟨-, hs⟩, rfl⟩
    exact hs
  · intro hi
    obtain ⟨s, hs, -⟩ := h.mem_idsIn_iff.mp hi
    have hid : s.id = i := h.id_eq hs
    exact ⟨s, ⟨List.mem_of_getElem? hs, hid ▸ hi⟩, hid⟩

theorem WellFormed.reflects_iff {r : Registry} (h : r.WellFormed) {d : DocumentId}
    {a : Analysis} :
    r.Reflects d a ↔ (∀ i, r.slice d i = a.slice i) ∧ ∀ i, i ∈ r.idsIn d ↔ i ∈ a.symbols := by
  constructor
  · intro hr
    refine ⟨hr.slice_eq, fun i => ?_⟩
    rw [← h.mem_symbolsIn_iff]
    exact hr.mem_symbolsIn_iff i
  · rintro ⟨hslice, hids⟩
    refine ⟨hslice, fun i => ?_⟩
    rw [h.mem_symbolsIn_iff]
    exact hids i

/-- A symbol of the registry stands at the place that its handle tells. -/
theorem WellFormed.symbol?_of_mem {r : Registry} (h : r.WellFormed) {s : Symbol}
    (hs : s ∈ r.symbols) : r.symbol? s.id = some s := by
  obtain ⟨n, hn⟩ := List.getElem?_of_mem hs
  have hplace : r.symbol? ⟨n⟩ = some s := hn
  rw [h.id_eq hplace]
  exact hplace

theorem WellFormed.symbol?_of_mem_symbolsIn {r : Registry} (h : r.WellFormed) {d : DocumentId}
    {s : Symbol} (hs : s ∈ r.symbolsIn d) : r.symbol? s.id = some s :=
  h.symbol?_of_mem (List.mem_filter.mp hs).1

/-- Symbols come in the order of their handles. -/
theorem WellFormed.pairwise_symbols {r : Registry} (h : r.WellFormed) :
    r.symbols.Pairwise fun s t => s.id.index < t.id.index := by
  refine List.pairwise_iff_getElem.mpr fun m n hm hn hlt => ?_
  have hplace : ∀ k (hk : k < r.symbols.length), r.symbols[k].id = ⟨k⟩ := fun k hk =>
    h.id_eq (i := ⟨k⟩) (List.getElem?_eq_getElem hk)
  rw [hplace m hm, hplace n hn]
  exact hlt

theorem WellFormed.pairwise_symbolsIn {r : Registry} (h : r.WellFormed) (d : DocumentId) :
    (r.symbolsIn d).Pairwise fun s t => s.id.index < t.id.index :=
  h.pairwise_symbols.filter _

namespace Reflects

variable {r : Registry} {d : DocumentId} {a : Analysis} {i : SymbolId} {s : Symbol}

/-- The ranges at which a symbol is defined are those that the analysis lists, the first of
equal ones. -/
theorem definitionsIn_eq (h : r.Reflects d a) (hs : r.symbol? i = some s) :
    s.definitionsIn d = (a.definitionsOf i).eraseDups :=
  congrArg Slice.definitions ((slice_of_symbol? hs d).symm.trans (h.slice_eq i))

/-- So are those at which it is referenced. -/
theorem referencesIn_eq (h : r.Reflects d a) (hs : r.symbol? i = some s) :
    s.referencesIn d = (a.referencesOf i).eraseDups :=
  congrArg Slice.references ((slice_of_symbol? hs d).symm.trans (h.slice_eq i))

end Reflects

/-- Names may be mentioned: an analysis is reflected as before. -/
theorem Reflects.mention {r : Registry} {d : DocumentId} {a : Analysis} (hr : r.Reflects d a)
    (h : r.WellFormed) (names : List String) : (r.mention names).Reflects d a := by
  rw [(h.mention names).reflects_iff]
  simp only [slice_mention, idsIn_mention]
  exact h.reflects_iff.mp hr

/-- Another document may be forgotten: an analysis is reflected as before. -/
theorem WellFormed.reflects_forget_iff {r : Registry} (h : r.WellFormed) {d d' : DocumentId}
    (hd : d ≠ d') {a : Analysis} : (r.forget d).Reflects d' a ↔ r.Reflects d' a := by
  rw [(h.forget d).reflects_iff, h.reflects_iff]
  simp only [h.slice_forget, idsIn_forget, if_neg hd]

/-- Of a document that is forgotten, nothing is reflected. -/
theorem WellFormed.reflects_forget_self {r : Registry} (h : r.WellFormed) (d : DocumentId) :
    (r.forget d).Reflects d (.empty d) := by
  rw [(h.forget d).reflects_iff]
  simp only [h.slice_forget, idsIn_forget, if_true]
  exact ⟨fun i => rfl, fun i => Iff.rfl⟩

/-! ### Silent documents -/

section

variable {r : Registry} {d : DocumentId}

/-- The index by document knows who is silent. -/
theorem WellFormed.silent_iff (h : r.WellFormed) : r.Silent d ↔ r.idsIn d = [] := by
  constructor
  · intro hsilent
    refine List.eq_nil_iff_forall_not_mem.mpr fun i hi => ?_
    obtain ⟨s, hs, hspoken⟩ := h.mem_idsIn_iff.mp hi
    exact hsilent.not_spokenOfBy hs hspoken
  · intro hids
    refine ⟨by simp [symbolsIn, hids], fun {i s} hs hspoken => ?_⟩
    have hmem : i ∈ r.idsIn d := h.mem_idsIn_iff.mpr ⟨s, hs, hspoken⟩
    rw [hids] at hmem
    exact List.not_mem_nil hmem

/-- Where nothing is reflected, the registry holds nothing of the document. -/
theorem Reflects.silent (hr : r.Reflects d (.empty d)) (h : r.WellFormed) : r.Silent d := by
  refine h.silent_iff.mpr (List.eq_nil_iff_forall_not_mem.mpr fun i hi => ?_)
  exact absurd (((h.reflects_iff.mp hr).2 i).mp hi) List.not_mem_nil

/-- A silent document is forgotten without a change. -/
theorem WellFormed.forget_of_silent (h : r.WellFormed) (hsilent : r.Silent d) :
    r.forget d = r := by
  have hids := h.silent_iff.mp hsilent
  have hunlisted : r.documents.contains d = false := by
    refine Bool.eq_false_iff.mpr fun hlisted => ?_
    obtain ⟨ids, hget⟩ := Option.isSome_iff_exists.mp hlisted
    rw [idsIn, hget, Option.getD_some] at hids
    exact h.documents.ne_nil hget hids
  simp only [Registry.forget, hids, List.not_mem_nil, if_false, List.map_id',
    Table.erase_of_not_contains hunlisted]

theorem Silent.mention (hsilent : r.Silent d) (h : r.WellFormed) (names : List String) :
    (r.mention names).Silent d := by
  rw [(h.mention names).silent_iff, idsIn_mention]
  exact h.silent_iff.mp hsilent

end

end Registry

end GrammarIndex
