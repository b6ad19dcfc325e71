import GrammarIndex.Analysis.View
import GrammarIndex.Proofs.Registry.Mention

/-!
# How names stand in a registry

The kind of a symbol comes out of the statements of all documents and of who defines
it, and a statement of another document may outweigh one's own.  During a pass it is
simpler: the registry has forgotten the document at the start, so that everything the
document states comes last, and whatever it defines it has stated a kind for.  Then
the kind of a symbol and the question whether the document has stated one are all
that matters, and each changes with what the document says.

## Main definitions

* `Symbol.standing`, `Registry.standing` — how a symbol, or a name, stands with a
  document.
* `Symbol.Settled`, `Registry.Settled` — what holds of a symbol, and of a registry,
  while a pass is under way.
* `Registry.ChangedAt` — the symbol of one handle was changed.

## Main results

* `Symbol.Settled.define`, `Symbol.Settled.state` — a document that defines a symbol
  decides its kind, and one that merely uses it changes no kind.
* `Registry.ChangedAt.standing_eq` — a change to one name is seen at no other.
-/

namespace GrammarIndex

/-- A new key comes last. -/
theorem Table.entries_insert_of_not_contains {κ α : Type} [DecidableEq κ] {t : Table κ α} {k : κ}
    (h : t.contains k = false) (a : α) : (t.insert k a).entries = t.entries ++ [(k, a)] := by
  obtain ⟨es⟩ := t
  simp only [Table.insert, Table.upsert]
  induction es with
  | nil => rfl
  | cons e es ih =>
    have hne : e.1 ≠ k := by
      rintro rfl
      simp [contains, get?_cons] at h
    have htail : contains ⟨es⟩ k = false := by
      rw [contains, get?_cons, if_neg hne] at h
      exact h
    rw [upsertEntries, if_neg hne, ih htail, List.cons_append]

namespace Symbol

/-- How a symbol stands with a document. -/
def standing (s : Symbol) (d : DocumentId) : Standing := ⟨s.kind?, s.statements.contains d⟩

@[simp] theorem standing_placeholder (i : SymbolId) (name : String) (d : DocumentId) :
    (placeholder i name).standing d = .ofOthers none := rfl

/-! ### Symbols during a pass -/

/-- What holds of a symbol while the document is analysed: whatever the document has
said, it has said last. -/
structure Settled (s : Symbol) (d : DocumentId) : Prop where
  /-- The document has stated a kind if it defines the symbol. -/
  stated_of_defined : s.definitions.contains d = true → s.statements.contains d = true
  /-- The statement of the document is the latest one. -/
  latest : ∀ {st : Statement}, s.statements.get? d = some st →
    s.statements.entries.getLast? = some (d, st)
  /-- The statement of the document tells the kind. -/
  decides : ∀ {st : Statement}, s.statements.get? d = some st → s.kind? = some st.kind

theorem settled_of_not_spokenOfBy {s : Symbol} {d : DocumentId} (h : ¬ s.SpokenOfBy d) :
    s.Settled d := by
  simp only [SpokenOfBy, not_or, Bool.not_eq_true] at h
  obtain ⟨hstatements, hdefinitions, -⟩ := h
  have hnone : ∀ {st : Statement}, s.statements.get? d ≠ some st := by
    intro st hst
    rw [Table.contains, hst] at hstatements
    exact absurd hstatements (by simp)
  refine ⟨?_, fun hst => absurd hst hnone, fun hst => absurd hst hnone⟩
  intro hdefined
  rw [hdefinitions] at hdefined
  exact absurd hdefined (by simp)

theorem effective?_eq (s : Symbol) :
    s.effective? =
      ((s.statements.entries.reverse.find? fun e => s.definitions.contains e.1).or
        s.statements.entries.reverse.head?).map (·.2) := rfl

/-- As soon as a document has stated a kind, some statement decides. -/
theorem exists_effective? {s : Symbol} {d : DocumentId} (h : s.statements.contains d = true) :
    ∃ st, s.effective? = some st := by
  obtain ⟨e, he, -⟩ := List.mem_map.mp (Table.contains_iff_mem_keys.mp h)
  have hnewest : s.statements.entries.reverse ≠ [] :=
    List.ne_nil_of_mem (List.mem_reverse.mpr he)
  rw [effective?_eq, List.head?_eq_some_head hnewest]
  cases s.statements.entries.reverse.find? fun e => s.definitions.contains e.1 with
  | none => exact ⟨_, rfl⟩
  | some e => exact ⟨e.2, rfl⟩

/-- The latest statement decides if its document defines the symbol. -/
theorem effective?_of_latest {s : Symbol} {d : DocumentId} {st : Statement}
    (hlast : s.statements.entries.getLast? = some (d, st))
    (hdefined : s.definitions.contains d = true) : s.effective? = some st := by
  obtain ⟨es, hes⟩ := List.getLast?_eq_some_iff.mp hlast
  have hnewest : s.statements.entries.reverse = (d, st) :: es.reverse := by
    rw [hes, List.reverse_append, List.reverse_singleton, List.singleton_append]
  rw [effective?_eq, hnewest, List.find?_cons_of_pos (by simpa using hdefined)]
  rfl

/-- One more statement, by a document that does not define the symbol, changes the
kind of a placeholder at most. -/
theorem kind?_of_concat {s t : Symbol} {d : DocumentId} {st : Statement}
    (hentries : t.statements.entries = s.statements.entries ++ [(d, st)])
    (hdefinitions : t.definitions = s.definitions) (hundefined : s.definitions.contains d = false)
    (hkind : s.kind?.all (· = st.kind) = true) : t.kind? = some st.kind := by
  have hnewest : t.statements.entries.reverse = (d, st) :: s.statements.entries.reverse := by
    rw [hentries, List.reverse_append, List.reverse_singleton, List.singleton_append]
  rw [kind?, effective?_eq] at hkind ⊢
  rw [hnewest, hdefinitions, List.find?_cons_of_neg (by simp [hundefined])]
  cases hfind : s.statements.entries.reverse.find? fun e => s.definitions.contains e.1 with
  | none => rfl
  | some e =>
    -- a document that defines the symbol keeps deciding
    rw [hfind] at hkind
    simpa using hkind

/-! ### What a document says during a pass -/

section

variable {s : Symbol} {d : DocumentId}

/-- The symbol after the document has stated a kind for it, where it had not. -/
theorem statements_state_of_not_contains (h : s.statements.contains d = false)
    (st : Statement) :
    (s.state d st).statements.get? d = some st ∧
      (s.state d st).statements.entries = s.statements.entries ++ [(d, st)] := by
  have hstate : (s.state d st).statements = s.statements.insert d st := by
    rw [state, if_neg (by simp [h])]
  rw [hstate]
  refine ⟨?_, Table.entries_insert_of_not_contains h st⟩
  rw [Table.get?_insert, if_pos rfl]

@[simp] theorem definitions_state (st : Statement) :
    (s.state d st).definitions = s.definitions := by
  unfold state
  split <;> rfl

theorem statements_state_of_contains (h : s.statements.contains d = true) (st : Statement) :
    s.state d st = s := by
  rw [state, if_pos h]

/-- The symbol is defined by a document that has a statement: that statement decides. -/
theorem settled_of_defined {t : Symbol} {st : Statement} (hget : t.statements.get? d = some st)
    (hlast : t.statements.entries.getLast? = some (d, st))
    (hdefined : t.definitions.contains d = true) :
    t.Settled d ∧ t.standing d = ⟨some st.kind, true⟩ := by
  have hkind : t.kind? = some st.kind := by
    rw [kind?, effective?_of_latest hlast hdefined]
    rfl
  have hcontains : t.statements.contains d = true := by rw [Table.contains, hget]; rfl
  refine ⟨⟨fun _ => hcontains, ?_, ?_⟩, ?_⟩
  · intro st' hst'
    rw [← Option.some.inj (hget.symm.trans hst')]
    exact hlast
  · intro st' hst'
    rw [← Option.some.inj (hget.symm.trans hst')]
    exact hkind
  · rw [standing, hkind, hcontains]

namespace Settled

/-- The document states a kind for the symbol and defines it. -/
theorem define (h : s.Settled d) (st : Statement) (range : Range) :
    ((s.state d st).addDefinition d range).Settled d ∧
      ((s.state d st).addDefinition d range).standing d = (s.standing d).settle st.kind := by
  have hdefined : ((s.state d st).addDefinition d range).definitions.contains d = true := by
    simp [addDefinition, addRange, Table.contains_upsert]
  cases hown : s.statements.contains d with
  | true =>
    -- the document has said something before, and this decides as it did
    obtain ⟨old, hold⟩ := Option.isSome_iff_exists.mp hown
    have hstate : s.state d st = s := statements_state_of_contains hown st
    rw [hstate] at hdefined ⊢
    obtain ⟨hsettled, hstanding⟩ :=
      settled_of_defined (t := s.addDefinition d range) hold (h.latest hold) hdefined
    refine ⟨hsettled, ?_⟩
    rw [hstanding, standing, hown, h.decides hold]
    rfl
  | false =>
    -- the first word of the document comes last, and decides from then on
    obtain ⟨hget, hentries⟩ := statements_state_of_not_contains hown st
    have hlast : (s.state d st).statements.entries.getLast? = some (d, st) := by
      rw [hentries, List.getLast?_concat]
    obtain ⟨hsettled, hstanding⟩ :=
      settled_of_defined (t := (s.state d st).addDefinition d range) hget hlast hdefined
    refine ⟨hsettled, ?_⟩
    rw [hstanding, standing, hown]
    rfl

/-- The document states a kind for the symbol where the symbol has none, or that kind. -/
theorem state (h : s.Settled d) (st : Statement) (hkind : s.kind?.all (· = st.kind) = true) :
    (s.state d st).Settled d ∧ (s.state d st).standing d = (s.standing d).settle st.kind := by
  cases hown : s.statements.contains d with
  | true =>
    rw [statements_state_of_contains hown]
    exact ⟨h, by simp [standing, hown, Standing.settle]⟩
  | false =>
    obtain ⟨hget, hentries⟩ := statements_state_of_not_contains hown st
    -- a document that defines the symbol would have said something about it
    have hundefined : s.definitions.contains d = false := by
      refine Bool.eq_false_iff.mpr fun hdefined => ?_
      rw [h.stated_of_defined hdefined] at hown
      exact absurd hown (by simp)
    have hnew : (s.state d st).kind? = some st.kind :=
      kind?_of_concat hentries (definitions_state st) hundefined hkind
    have hcontains : (s.state d st).statements.contains d = true := by
      rw [Table.contains, hget]; rfl
    refine ⟨⟨fun _ => hcontains, ?_, ?_⟩, ?_⟩
    · intro st' hst'
      rw [← Option.some.inj (hget.symm.trans hst'), hentries, List.getLast?_concat]
    · intro st' hst'
      rw [← Option.some.inj (hget.symm.trans hst'), hnew]
    · rw [standing, standing, hnew, hcontains, hown]
      rfl

theorem addReference (h : s.Settled d) (range : Range) : (s.addReference d range).Settled d :=
  ⟨h.stated_of_defined, h.latest, h.decides⟩

end Settled

end

end Symbol

/-! ### Names -/

namespace Registry

/-- How a name stands with a document. -/
def standing (r : Registry) (d : DocumentId) (name : String) : Standing :=
  ((r.symbolNamed? name).map (·.standing d)).getD (.ofOthers none)

theorem kind_standing (r : Registry) (d : DocumentId) (name : String) :
    (r.standing d name).kind = r.kindNamed? name := by
  unfold standing kindNamed? symbolNamed?
  cases r.lookup? name with
  | none => rfl
  | some i =>
    simp only [Option.bind_some, kind?]
    cases r.symbol? i <;> rfl

variable {r : Registry}

/-- A name that is merely mentioned stands as it did. -/
theorem WellFormed.standing_resolve (h : r.WellFormed) (name : String) (d : DocumentId) :
    (r.resolve name).2.standing d = r.standing d := by
  funext name'
  unfold standing symbolNamed?
  rw [lookup?_resolve]
  by_cases hname : name = name'
  · subst hname
    rw [if_pos rfl, Option.bind_some, symbol?_resolve]
    cases hn : r.lookup? name with
    | none => simp [resolve_of_lookup?_eq_none hn]
    | some i => simp [resolve_of_lookup? hn]
  · rw [if_neg hname]
    cases hlookup : r.lookup? name' with
    | none => rfl
    | some j =>
      have hj : j ≠ ⟨r.size⟩ := fun hj => h.lookup?_ne_size name' (hj ▸ hlookup)
      rw [Option.bind_some, Option.bind_some, symbol?_resolve, if_neg fun hnew => hj hnew.2]

/-! ### Changes to one symbol -/

/-- A registry in which the symbol of one handle was changed, and nothing else that a
look-up can see. -/
structure ChangedAt (r r' : Registry) (i : SymbolId) (change : Symbol → Symbol) : Prop where
  /-- Every name has its handle. -/
  lookup? : ∀ name, r'.lookup? name = r.lookup? name
  /-- The symbol of the handle was changed, and no other. -/
  symbol? : ∀ j, r'.symbol? j = if i = j then (r.symbol? j).map change else r.symbol? j

theorem changedAt_write (r : Registry) (d : DocumentId) (i : SymbolId)
    (change : Symbol → Symbol) : r.ChangedAt (r.write d i change) i change :=
  ⟨lookup?_write r d i change, fun j => symbol?_write r d i j change⟩

namespace ChangedAt

variable {r' r'' : Registry} {i : SymbolId} {change change' : Symbol → Symbol}

theorem trans (h : r.ChangedAt r' i change) (h' : r'.ChangedAt r'' i change') :
    r.ChangedAt r'' i (change' ∘ change) where
  lookup? := fun name => (h'.lookup? name).trans (h.lookup? name)
  symbol? := fun j => by
    rw [h'.symbol? j, h.symbol? j]
    by_cases hij : i = j
    · rw [if_pos hij, if_pos hij, if_pos hij, Option.map_map]
    · rw [if_neg hij, if_neg hij, if_neg hij]

/-- The change is seen at the name of the symbol, and at no other. -/
theorem symbolNamed?_eq (h : r.ChangedAt r' i change) (hr : r.WellFormed) {name : String}
    (hi : r.lookup? name = some i) (name' : String) :
    r'.symbolNamed? name' =
      if name' = name then (r.symbolNamed? name').map change else r.symbolNamed? name' := by
  unfold symbolNamed?
  rw [h.lookup?]
  cases hlookup : r.lookup? name' with
  | none => simp
  | some j =>
    have hiff : i = j ↔ name' = name := by
      constructor
      · rintro rfl
        obtain ⟨s, hs, rfl⟩ := hr.lookup?_eq_some_iff.mp hi
        obtain ⟨s', hs', rfl⟩ := hr.lookup?_eq_some_iff.mp hlookup
        rw [Option.some.inj (hs.symm.trans hs')]
      · rintro rfl
        exact Option.some.inj (hi.symm.trans hlookup)
    rw [Option.bind_some, Option.bind_some, h.symbol?]
    simp only [hiff]

/-- A change of the symbol changes the standing of its name alone. -/
theorem standing_eq (h : r.ChangedAt r' i change) (hr : r.WellFormed) {name : String}
    (hi : r.lookup? name = some i) {d : DocumentId} {f : Standing → Standing}
    (hf : ∀ s, r.symbol? i = some s → (change s).standing d = f (s.standing d))
    (name' : String) :
    r'.standing d name' = if name' = name then f (r.standing d name') else r.standing d name' := by
  obtain ⟨s, hs, -⟩ := hr.lookup?_eq_some_iff.mp hi
  unfold standing
  rw [h.symbolNamed?_eq hr hi]
  by_cases hname : name' = name
  · have hnamed : r.symbolNamed? name' = some s := by
      rw [symbolNamed?, hname, hi, Option.bind_some, hs]
    rw [if_pos hname, if_pos hname, hnamed]
    exact hf s hs
  · rw [if_neg hname, if_neg hname]

end ChangedAt

/-! ### Registries during a pass -/

/-- Whatever the document has said of any symbol, it has said last. -/
def Settled (r : Registry) (d : DocumentId) : Prop :=
  ∀ (i : SymbolId) (s : Symbol), r.symbol? i = some s → s.Settled d

/-- It is so at the beginning of a pass, when the document has said nothing. -/
theorem WellFormed.settled_forget (h : r.WellFormed) (d : DocumentId) :
    (r.forget d).Settled d := by
  intro i s hs
  rw [h.symbol?_forget, Option.map_eq_some_iff] at hs
  obtain ⟨s', -, rfl⟩ := hs
  refine Symbol.settled_of_not_spokenOfBy fun hspoken => ?_
  exact (Symbol.spokenOfBy_forget.mp hspoken).1 rfl

theorem WellFormed.standing_forget (h : r.WellFormed) (d : DocumentId) (name : String) :
    (r.forget d).standing d name = .ofOthers ((r.forget d).kindNamed? name) := by
  have hown : ((r.forget d).standing d name).own = false := by
    unfold standing symbolNamed?
    cases hn : (r.forget d).lookup? name with
    | none => rfl
    | some i =>
      rw [Option.bind_some, h.symbol?_forget]
      cases r.symbol? i with
      | none => rfl
      | some s => simp [Symbol.standing, Symbol.forget, Table.contains_erase]
  rw [← kind_standing _ d, Standing.ofOthers, ← hown]

namespace Settled

variable {d : DocumentId}

theorem resolve (h : r.Settled d) (name : String) : (r.resolve name).2.Settled d := by
  intro i s hs
  rw [symbol?_resolve] at hs
  split at hs
  · rw [← Option.some.inj hs]
    exact Symbol.settled_of_not_spokenOfBy (Symbol.not_spokenOfBy_placeholder _ _ d)
  · exact h i s hs

theorem changedAt (h : r.Settled d) {r' : Registry} {i : SymbolId} {change : Symbol → Symbol}
    (hr' : r.ChangedAt r' i change)
    (hchange : ∀ s, r.symbol? i = some s → (change s).Settled d) : r'.Settled d := by
  intro j s' hs'
  rw [hr'.symbol?] at hs'
  split at hs'
  · next hij =>
    obtain ⟨s, hs, rfl⟩ := Option.map_eq_some_iff.mp hs'
    exact hchange s (hij ▸ hs)
  · exact h j s' hs'

end Settled

end Registry

/-! ### Documents that have stated nothing -/

namespace Symbol

/-- A document that has stated no kind has no say in it. -/
theorem kind?_forget_of_not_contains {s : Symbol} {d : DocumentId}
    (h : s.statements.contains d = false) : (s.forget d).kind? = s.kind? := by
  have hstatements : (s.forget d).statements = s.statements := Table.erase_of_not_contains h
  have hdefinitions : ∀ e ∈ s.statements.entries.reverse,
      (s.forget d).definitions.contains e.1 = s.definitions.contains e.1 := by
    intro e he
    have hkey : s.statements.contains e.1 = true :=
      Table.contains_iff_mem_keys.mpr (List.mem_map_of_mem (List.mem_reverse.mp he))
    have hne : d ≠ e.1 := by
      rintro rfl
      exact absurd (h.symm.trans hkey) (by simp)
    show (s.definitions.erase d).contains e.1 = _
    simp [Table.contains_erase, hne]
  rw [kind?, kind?, effective?_eq, effective?_eq, hstatements, ← List.head?_filter,
    ← List.head?_filter, List.filter_congr hdefinitions]

/-- A symbol of which nobody has stated a kind has none. -/
theorem kind?_eq_none {s : Symbol} (h : ∀ d, s.statements.contains d = false) :
    s.kind? = none := by
  have hentries : s.statements.entries = [] := by
    refine List.eq_nil_iff_forall_not_mem.mpr fun e he => ?_
    have hkey : s.statements.contains e.1 = true :=
      Table.contains_iff_mem_keys.mpr (List.mem_map_of_mem he)
    exact absurd ((h e.1).symm.trans hkey) (by simp)
  rw [kind?, effective?_eq, hentries]
  rfl

end Symbol

namespace Registry

variable {r : Registry} {d : DocumentId} {n : String}

theorem own_standing (r : Registry) (d : DocumentId) (n : String) :
    (r.standing d n).own = (r.symbolNamed? n).any fun s => s.statements.contains d := by
  unfold standing
  cases r.symbolNamed? n <;> rfl

theorem kindNamed?_eq (r : Registry) (n : String) :
    r.kindNamed? n = (r.symbolNamed? n).bind (·.kind?) := by
  unfold kindNamed? symbolNamed?
  cases r.lookup? n <;> rfl

theorem WellFormed.symbolNamed?_forget (h : r.WellFormed) (d : DocumentId) (n : String) :
    (r.forget d).symbolNamed? n = (r.symbolNamed? n).map (·.forget d) := by
  unfold symbolNamed?
  rw [lookup?_forget]
  cases r.lookup? n with
  | none => rfl
  | some i => exact h.symbol?_forget d i

/-- What a document has not stated, it cannot take back. -/
theorem WellFormed.kindNamed?_forget_of_not_own (h : r.WellFormed)
    (hown : (r.standing d n).own = false) : (r.forget d).kindNamed? n = r.kindNamed? n := by
  rw [own_standing] at hown
  rw [kindNamed?_eq, kindNamed?_eq, h.symbolNamed?_forget]
  cases hs : r.symbolNamed? n with
  | none => rfl
  | some s =>
    rw [hs] at hown
    exact Symbol.kind?_forget_of_not_contains hown

/-- A name of which nobody has stated a kind has none. -/
theorem kindNamed?_eq_none_of_not_own (hown : ∀ d, (r.standing d n).own = false) :
    r.kindNamed? n = none := by
  simp only [own_standing] at hown
  rw [kindNamed?_eq]
  cases hs : r.symbolNamed? n with
  | none => rfl
  | some s =>
    refine Symbol.kind?_eq_none fun d => ?_
    have hd := hown d
    rw [hs] at hd
    exact hd

/-- Forgetting a document takes nobody else's statement back. -/
theorem WellFormed.own_standing_forget (h : r.WellFormed) (d d' : DocumentId) (n : String) :
    ((r.forget d).standing d' n).own = (!decide (d = d') && (r.standing d' n).own) := by
  rw [own_standing, own_standing, h.symbolNamed?_forget]
  cases r.symbolNamed? n with
  | none => simp
  | some s =>
    show (s.statements.erase d).contains d' = _
    rw [Table.contains_erase]
    by_cases hd : d = d' <;> simp [hd]

theorem WellFormed.standing_mention (h : r.WellFormed) (names : List String) (d : DocumentId) :
    (r.mention names).standing d = r.standing d := by
  induction names generalizing r with
  | nil => rfl
  | cons name names ih => rw [mention_cons, ih (h.resolve name), h.standing_resolve]

end Registry

end GrammarIndex
