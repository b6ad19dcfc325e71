import GrammarIndex.Proofs.Analysis.Hearing
import GrammarIndex.Proofs.Analysis.Territory

/-!
# Two documents in either order

A symbol hears two documents, one after the other.  If both merely mention it as a grammar
and reference it, the order is seen in the order of the two documents and nowhere else: not
in the statement that decides, and not in what is left once one of the two is forgotten.
And whatever a symbol hears, a symbol that says the same hears it alike, even if handles are
different.

## Main definitions

* `Symbol.Alike` — symbols that say the same, but for handles.
* `Symbol.Reordered` — symbols that say the same, but for the order of two documents.

## Main results

* `Symbol.Alike.hearAll` — alike symbols hear alike.
* `Symbol.hearAll_of_mild` — what is left of mild moves.
* `Symbol.reordered_hearAll` — **the order of two mild documents is seen in their order only.**
-/

namespace GrammarIndex

namespace Symbol

/-! ### Symbols with different handles -/

/-- The entries are of one document, state one kind, and have parents that are related. -/
def EntriesAlike (related : Option SymbolId → Option SymbolId → Prop)
    (e e' : DocumentId × Statement) : Prop :=
  e.1 = e'.1 ∧ e.2.kind = e'.2.kind ∧ related e.2.parent e'.2.parent

/-- The symbols say the same, but for their handles and those of parents, which are
related. -/
structure Alike (related : Option SymbolId → Option SymbolId → Prop) (s t : Symbol) : Prop where
  /-- The name is the same. -/
  qualifiedName : s.qualifiedName = t.qualifiedName
  /-- The statements are of the same documents, in the same order. -/
  statements :
    List.Forall₂ (EntriesAlike related) s.statements.entries t.statements.entries
  /-- The definitions are the same. -/
  definitions : s.definitions = t.definitions
  /-- The references are the same. -/
  references : s.references = t.references

section

variable {related : Option SymbolId → Option SymbolId → Prop}

theorem find?_entriesAlike {es es' : List (DocumentId × Statement)}
    (h : List.Forall₂ (EntriesAlike related) es es') (p : DocumentId → Bool) :
    Option.Rel (EntriesAlike related) (es.find? fun e => p e.1) (es'.find? fun e => p e.1) := by
  induction h with
  | nil => exact .none
  | cons he _ ih =>
    rw [List.find?_cons, List.find?_cons, he.1]
    split
    · exact .some he
    · exact ih

theorem filter_entriesAlike {es es' : List (DocumentId × Statement)}
    (h : List.Forall₂ (EntriesAlike related) es es') (p : DocumentId → Bool) :
    List.Forall₂ (EntriesAlike related) (es.filter fun e => p e.1) (es'.filter fun e => p e.1) := by
  induction h with
  | nil => exact .nil
  | cons he _ ih =>
    rw [List.filter_cons, List.filter_cons, he.1]
    split
    · exact .cons he ih
    · exact ih

theorem head?_entriesAlike {es es' : List (DocumentId × Statement)}
    (h : List.Forall₂ (EntriesAlike related) es es') :
    Option.Rel (EntriesAlike related) es.head? es'.head? := by
  cases h with
  | nil => exact .none
  | cons he _ => exact .some he

namespace Alike

variable {s t : Symbol}

theorem contains_statements (h : s.Alike related t) (d : DocumentId) :
    s.statements.contains d = t.statements.contains d := by
  have hfind := find?_entriesAlike h.statements fun d' => decide (d' = d)
  simp only [Table.contains, Table.get?, Option.isSome_map]
  generalize s.statements.entries.find? _ = e, t.statements.entries.find? _ = e' at hfind ⊢
  cases hfind with
  | some _ => rfl
  | none => rfl

/-- The statements that decide are alike. -/
theorem effective? (h : s.Alike related t) :
    Option.Rel (fun st st' => st.kind = st'.kind ∧ related st.parent st'.parent)
      s.effective? t.effective? := by
  have hreverse : List.Forall₂ (EntriesAlike related) s.statements.entries.reverse
      t.statements.entries.reverse := List.rel_reverse h.statements
  have hfind := find?_entriesAlike hreverse s.definitions.contains
  have hhead := head?_entriesAlike hreverse
  rw [effective?_eq, effective?_eq, ← h.definitions]
  generalize s.statements.entries.reverse.find? _ = e, t.statements.entries.reverse.find? _ = e',
    s.statements.entries.reverse.head? = f, t.statements.entries.reverse.head? = f'
    at hfind hhead ⊢
  cases hfind with
  | some he => exact .some he.2
  | none =>
    cases hhead with
    | some hf => exact .some hf.2
    | none => exact .none

theorem kind? (h : s.Alike related t) : s.kind? = t.kind? := by
  have heffective := h.effective?
  unfold Symbol.kind?
  generalize s.effective? = st, t.effective? = st' at heffective ⊢
  cases heffective with
  | some hst => exact congrArg some hst.1
  | none => rfl

theorem parent? (h : s.Alike related t) (hnone : related none none) :
    related s.parent? t.parent? := by
  have heffective := h.effective?
  unfold Symbol.parent?
  generalize s.effective? = st, t.effective? = st' at heffective ⊢
  cases heffective with
  | some hst => exact hst.2
  | none => exact hnone

/-- Alike symbols forget alike. -/
theorem forget (h : s.Alike related t) (d : DocumentId) :
    (s.forget d).Alike related (t.forget d) where
  qualifiedName := h.qualifiedName
  statements := filter_entriesAlike h.statements fun d' => d' ≠ d
  definitions := congrArg (·.erase d) h.definitions
  references := congrArg (·.erase d) h.references

/-! ### What alike symbols hear -/

theorem state (h : s.Alike related t) (d : DocumentId) (kind : Kind)
    {parent parent' : Option SymbolId} (hparent : related parent parent') :
    (s.state d ⟨kind, parent⟩).Alike related (t.state d ⟨kind, parent'⟩) := by
  cases hold : s.statements.contains d with
  | true =>
    have hold' : t.statements.contains d = true := by rw [← h.contains_statements, hold]
    rw [statements_state_of_contains hold, statements_state_of_contains hold']
    exact h
  | false =>
    have hold' : t.statements.contains d = false := by rw [← h.contains_statements, hold]
    have hreferences :
        ∀ (u : Symbol) (st : Statement), (u.state d st).references = u.references := by
      intro u st
      unfold Symbol.state
      split <;> rfl
    refine ⟨by simp [h.qualifiedName], ?_, by simp [h.definitions], ?_⟩
    · rw [(statements_state_of_not_contains hold _).2,
        (statements_state_of_not_contains hold' _).2]
      exact List.rel_append h.statements (.cons ⟨rfl, rfl, hparent⟩ .nil)
    · rw [hreferences, hreferences, h.references]

theorem hear (h : s.Alike related t) {handleOf handleOf' : String → Option SymbolId}
    (howner : ∀ owner : Option String, related (owner.bind handleOf) (owner.bind handleOf'))
    (d : DocumentId) (m : Move) : (s.hear handleOf d m).Alike related (t.hear handleOf' d m) := by
  -- what a symbol hears is told by its name and by what it has heard so far
  cases m with
  | state name kind owner =>
    simp only [Symbol.hear, h.qualifiedName]
    split
    · exact h.state d kind (howner owner)
    · exact h
  | suggest name kind owner =>
    simp only [Symbol.hear, h.qualifiedName, h.kind?]
    split
    · split
      · exact h.state d kind (howner owner)
      · exact h
    · exact h
  | define name range =>
    simp only [Symbol.hear, h.qualifiedName]
    split
    · exact { h with definitions := congrArg (addRange · d range) h.definitions }
    · exact h
  | refer name range =>
    simp only [Symbol.hear, h.qualifiedName]
    split
    · exact { h with references := congrArg (addRange · d range) h.references }
    · exact h
  | note | rescope => exact h

/-- **Alike symbols hear alike.** -/
theorem hearAll (h : s.Alike related t) {handleOf handleOf' : String → Option SymbolId}
    (howner : ∀ owner : Option String, related (owner.bind handleOf) (owner.bind handleOf'))
    (d : DocumentId) (ms : List Move) :
    (s.hearAll handleOf d ms).Alike related (t.hearAll handleOf' d ms) := by
  induction ms generalizing s t with
  | nil => exact h
  | cons m ms ih => exact ih (h.hear howner d m)

end Alike

end

/-! ### Mild moves -/

/-- The symbol takes a statement that it is a grammar where it is used. -/
def admitsGrammar (s : Symbol) : Bool := s.kind?.all (· = .grammar)

/-- The document states, where it uses the symbol, that it is a grammar. -/
def callGrammar (s : Symbol) (d : DocumentId) (called : Bool) : Symbol :=
  if s.admitsGrammar && called then s.state d ⟨.grammar, none⟩ else s

/-- The document references the symbol at several ranges. -/
def addReferences (s : Symbol) (d : DocumentId) (ranges : List Range) : Symbol :=
  ranges.foldl (·.addReference d ·) s

end Symbol

/-- The move says of the name that it is a grammar. -/
def Move.callsGrammar (name : String) : Move → Bool
  | suggest name' .grammar none => name' = name
  | _ => false

/-- The range at which the move references the name. -/
def Move.range? (name : String) : Move → Option Range
  | refer name' range => if name' = name then some range else none
  | _ => none

/-- A mild move calls the name a grammar, or references it, or is not addressed to it. -/
theorem Move.mild_cases {name : String} {m : Move} (h : name ∈ m.names → m.isMild = true) :
    m = .suggest name .grammar none ∨ (∃ range, m = .refer name range) ∨
      (name ∉ m.names ∧ m.callsGrammar name = false ∧ m.range? name = none) := by
  -- a move about the name is mild, and any other says nothing of it
  by_cases hname : name ∈ m.names
  · have hmild := h hname
    cases m with
    | state | define => exact absurd hmild (by simp [isMild])
    | suggest name' kind owner =>
      obtain rfl := List.mem_singleton.mp hname
      refine .inl ?_
      cases kind <;> cases owner <;> simp_all [isMild]
    | refer name' range =>
      obtain rfl := List.mem_singleton.mp hname
      exact .inr (.inl ⟨range, rfl⟩)
    | note | rescope => exact absurd hname List.not_mem_nil
  · refine .inr (.inr ⟨hname, ?_⟩)
    cases m with
    | suggest name' kind owner =>
      have hne : name' ≠ name := fun heq => hname (List.mem_singleton.mpr heq.symm)
      refine ⟨?_, rfl⟩
      unfold callsGrammar
      split <;> simp_all
    | refer name' range =>
      have hne : name' ≠ name := fun heq => hname (List.mem_singleton.mpr heq.symm)
      exact ⟨rfl, if_neg hne⟩
    | _ => exact ⟨rfl, rfl⟩

namespace Symbol

section

variable {s : Symbol} {d e : DocumentId}

theorem state_state (s : Symbol) (d : DocumentId) (st st' : Statement) :
    (s.state d st).state d st' = s.state d st := by
  cases hold : s.statements.contains d with
  | true =>
    rw [statements_state_of_contains hold, statements_state_of_contains hold]
  | false =>
    have hnew : (s.state d st).statements.contains d = true := by
      rw [Table.contains, (statements_state_of_not_contains hold st).1]
      rfl
    rw [statements_state_of_contains hnew]

theorem addReference_state (s : Symbol) (d e : DocumentId) (st : Statement) (range : Range) :
    (s.addReference e range).state d st = (s.state d st).addReference e range := by
  unfold state
  show (if s.statements.contains d = true then _ else _) = _
  split <;> rfl

/-- A symbol that is called a grammar is one, unless somebody who defines it says otherwise. -/
theorem admitsGrammar_state (hd : s.definitions.contains d = false)
    (h : s.admitsGrammar = true) : (s.state d ⟨.grammar, none⟩).admitsGrammar = true := by
  cases hold : s.statements.contains d with
  | true => rw [statements_state_of_contains hold, h]
  | false =>
    have hkind : (s.state d ⟨.grammar, none⟩).kind? = some .grammar :=
      kind?_of_concat (statements_state_of_not_contains hold _).2 (definitions_state _) hd h
    rw [admitsGrammar, hkind]
    rfl

@[simp] theorem definitions_callGrammar (s : Symbol) (d : DocumentId) (called : Bool) :
    (s.callGrammar d called).definitions = s.definitions := by
  unfold callGrammar
  split <;> simp

@[simp] theorem qualifiedName_callGrammar (s : Symbol) (d : DocumentId) (called : Bool) :
    (s.callGrammar d called).qualifiedName = s.qualifiedName := by
  unfold callGrammar
  split <;> simp

theorem admitsGrammar_callGrammar (hd : s.definitions.contains d = false) (called : Bool) :
    (s.callGrammar d called).admitsGrammar = s.admitsGrammar := by
  unfold callGrammar
  split
  · next h =>
    have hadmits : s.admitsGrammar = true := (Bool.and_eq_true_iff.mp h).1
    rw [admitsGrammar_state hd hadmits, hadmits]
  · rfl

/-- To be called a grammar twice is to be called so once. -/
theorem callGrammar_callGrammar (hd : s.definitions.contains d = false) (called called' : Bool) :
    (s.callGrammar d called).callGrammar d called' = s.callGrammar d (called || called') := by
  have hadmits := admitsGrammar_callGrammar hd called
  rw [callGrammar, hadmits]
  unfold callGrammar
  cases s.admitsGrammar <;> cases called <;> cases called' <;> simp [state_state]

@[simp] theorem addReferences_nil (s : Symbol) (d : DocumentId) : s.addReferences d [] = s := rfl

theorem addReferences_cons (s : Symbol) (d : DocumentId) (range : Range) (ranges : List Range) :
    s.addReferences d (range :: ranges) = (s.addReference d range).addReferences d ranges := rfl

/-- References are nobody's statements. -/
theorem statements_addReferences (s : Symbol) (d : DocumentId) (ranges : List Range) :
    (s.addReferences d ranges).statements = s.statements ∧
      (s.addReferences d ranges).definitions = s.definitions := by
  induction ranges generalizing s with
  | nil => exact ⟨rfl, rfl⟩
  | cons range ranges ih => exact ih (s.addReference d range)

theorem effective?_addReferences (s : Symbol) (d : DocumentId) (ranges : List Range) :
    (s.addReferences d ranges).effective? = s.effective? := by
  obtain ⟨hstatements, hdefinitions⟩ := s.statements_addReferences d ranges
  rw [effective?_eq, effective?_eq, hstatements, hdefinitions]

theorem admitsGrammar_addReferences (s : Symbol) (d : DocumentId) (ranges : List Range) :
    (s.addReferences d ranges).admitsGrammar = s.admitsGrammar := by
  rw [admitsGrammar, kind?, effective?_addReferences]
  rfl

theorem callGrammar_addReference (s : Symbol) (d e : DocumentId) (called : Bool) (range : Range) :
    (s.addReference e range).callGrammar d called =
      (s.callGrammar d called).addReference e range := by
  unfold callGrammar
  show (if s.admitsGrammar && called then _ else _) = _
  split
  · exact addReference_state s d e _ range
  · rfl

theorem callGrammar_addReferences (s : Symbol) (d e : DocumentId) (called : Bool)
    (ranges : List Range) :
    (s.addReferences e ranges).callGrammar d called =
      (s.callGrammar d called).addReferences e ranges := by
  induction ranges generalizing s with
  | nil => rfl
  | cons range ranges ih =>
    rw [addReferences_cons, ih, callGrammar_addReference]
    rfl

theorem forget_addReferences_of_ne (hde : d ≠ e) (s : Symbol) (ranges : List Range) :
    (s.addReferences d ranges).forget e = (s.forget e).addReferences d ranges := by
  induction ranges generalizing s with
  | nil => rfl
  | cons range ranges ih =>
    rw [addReferences_cons, ih, forget_addReference_of_ne hde]
    rfl

/-- **What is left of mild moves**: a statement, if there is one, and some references. -/
theorem hearAll_of_mild (handleOf : String → Option SymbolId)
    (hd : s.definitions.contains d = false) {ms : List Move}
    (hmild : ∀ m ∈ ms, s.qualifiedName ∈ m.names → m.isMild = true) :
    s.hearAll handleOf d ms =
      (s.callGrammar d (ms.any (·.callsGrammar s.qualifiedName))).addReferences d
        (ms.filterMap (·.range? s.qualifiedName)) := by
  -- by induction on the moves, which come in any order
  induction ms generalizing s with
  | nil => simp [callGrammar]
  | cons m ms ih =>
    have htail : ∀ m ∈ ms, s.qualifiedName ∈ m.names → m.isMild = true :=
      fun m' hm' => hmild m' (List.mem_cons_of_mem m hm')
    rw [hearAll_cons, List.any_cons]
    rcases Move.mild_cases (hmild m List.mem_cons_self) with
      rfl | ⟨range, rfl⟩ | ⟨hnames, hcalls, hrange⟩
    · -- the name is called a grammar
      have hhear : s.hear handleOf d (.suggest s.qualifiedName .grammar none) =
          s.callGrammar d true := by
        simp [hear, callGrammar, admitsGrammar]
      have hcalls : Move.callsGrammar s.qualifiedName (.suggest s.qualifiedName .grammar none) =
          true := decide_eq_true rfl
      rw [hhear, ih (by simpa using hd) (by simpa using htail), callGrammar_callGrammar hd, hcalls,
        qualifiedName_callGrammar, List.filterMap_cons_none rfl]
    · -- the name is referred to
      have hhear : s.hear handleOf d (.refer s.qualifiedName range) = s.addReference d range :=
        if_pos rfl
      have hrest := @ih (s.addReference d range) hd htail
      have hrange : Move.range? s.qualifiedName (.refer s.qualifiedName range) = some range :=
        if_pos rfl
      rw [hhear, hrest, callGrammar_addReference, ← addReferences_cons,
        List.filterMap_cons_some hrange]
      rfl
    · -- the move is about other names
      rw [hear_of_not_mem _ _ hnames, ih hd htail, hcalls, List.filterMap_cons_none hrange]
      rfl

theorem admitsGrammar_hearAll_of_mild (handleOf : String → Option SymbolId)
    (hd : s.definitions.contains d = false) {ms : List Move}
    (hmild : ∀ m ∈ ms, s.qualifiedName ∈ m.names → m.isMild = true) :
    (s.hearAll handleOf d ms).definitions = s.definitions ∧
      (s.hearAll handleOf d ms).admitsGrammar = s.admitsGrammar := by
  rw [hearAll_of_mild handleOf hd hmild, (statements_addReferences _ d _).2,
    definitions_callGrammar, admitsGrammar_addReferences, admitsGrammar_callGrammar hd]
  exact ⟨rfl, rfl⟩

theorem contains_definitions_of_not_spokenOfBy (h : ¬ s.SpokenOfBy d) :
    s.definitions.contains d = false := by
  simp only [SpokenOfBy, not_or, Bool.not_eq_true] at h
  exact h.2.1

/-! ### Two documents -/

/-- The symbols say the same, but for the order of two documents. -/
structure Reordered (d e : DocumentId) (s t : Symbol) : Prop where
  /-- The same statement decides. -/
  effective? : s.effective? = t.effective?
  /-- They are the same once the first of the two documents is forgotten. -/
  forget_left : s.forget d = t.forget d
  /-- They are the same once the second is forgotten. -/
  forget_right : s.forget e = t.forget e

theorem Reordered.refl (d e : DocumentId) (s : Symbol) : s.Reordered d e s := ⟨rfl, rfl, rfl⟩

theorem Reordered.kind? {t : Symbol} (h : s.Reordered d e t) : s.kind? = t.kind? := by
  rw [Symbol.kind?, h.effective?, Symbol.kind?]

theorem Reordered.parent? {t : Symbol} (h : s.Reordered d e t) : s.parent? = t.parent? := by
  rw [Symbol.parent?, h.effective?, Symbol.parent?]

/-- Whatever concerns one document is the same: one of the two can be forgotten without
touching it. -/
theorem Reordered.eq_of_forget {t : Symbol} (h : s.Reordered d e t) (hde : d ≠ e) {α : Type}
    (f : Symbol → α) (document : DocumentId)
    (hf : ∀ {other : DocumentId}, other ≠ document → ∀ u : Symbol, f (u.forget other) = f u) :
    f s = f t := by
  by_cases hd : d = document
  · have he : e ≠ document := hd ▸ hde.symm
    rw [← hf he s, h.forget_right, hf he t]
  · rw [← hf hd s, h.forget_left, hf hd t]

/-- What a document says is forgotten with it. -/
theorem forget_hear (handleOf : String → Option SymbolId) (d : DocumentId) (s : Symbol)
    (m : Move) : (s.hear handleOf d m).forget d = s.forget d := by
  -- whatever is heard is said by the document, and is forgotten with it
  cases m with
  | state name kind owner =>
    simp only [hear]
    split
    · exact (isSpeech_state d _).forget_eq s
    · rfl
  | suggest name kind owner =>
    simp only [hear]
    split
    · split
      · exact (isSpeech_state d _).forget_eq s
      · rfl
    · rfl
  | define name range =>
    simp only [hear]
    split
    · exact (isSpeech_addDefinition d range).forget_eq s
    · rfl
  | refer name range =>
    simp only [hear]
    split
    · exact (isSpeech_addReference d range).forget_eq s
    · rfl
  | note | rescope => rfl

theorem forget_hearAll (handleOf : String → Option SymbolId) (d : DocumentId) (s : Symbol)
    (ms : List Move) : (s.hearAll handleOf d ms).forget d = s.forget d := by
  induction ms generalizing s with
  | nil => rfl
  | cons m ms ih => rw [hearAll_cons, ih, forget_hear]

theorem forget_callGrammar_of_ne (hde : d ≠ e) (s : Symbol) (called : Bool) :
    (s.callGrammar d called).forget e =
      if s.admitsGrammar && called then (s.forget e).state d ⟨.grammar, none⟩ else s.forget e := by
  unfold callGrammar
  split
  · exact s.forget_state_of_ne hde _
  · rfl

/-- What a symbol has heard of one mild document, another being forgotten, depends on what it
was without the other. -/
theorem forget_hearAll_congr (hde : d ≠ e) (handleOf : String → Option SymbolId) {t : Symbol}
    (hs : s.definitions.contains d = false) (ht : t.definitions.contains d = false)
    (hname : t.qualifiedName = s.qualifiedName) (hadmits : t.admitsGrammar = s.admitsGrammar)
    (hforget : t.forget e = s.forget e) {ms : List Move}
    (hmild : ∀ m ∈ ms, s.qualifiedName ∈ m.names → m.isMild = true) :
    (t.hearAll handleOf d ms).forget e = (s.hearAll handleOf d ms).forget e := by
  rw [hearAll_of_mild handleOf hs hmild, hearAll_of_mild handleOf ht (hname ▸ hmild),
    forget_addReferences_of_ne hde, forget_addReferences_of_ne hde, forget_callGrammar_of_ne hde,
    forget_callGrammar_of_ne hde, hadmits, hforget, hname]

/-- Two documents that define nothing may call a symbol a grammar in either order. -/
theorem effective?_state_state (hde : d ≠ e) (hd : ¬ s.SpokenOfBy d) (he : ¬ s.SpokenOfBy e)
    (st : Statement) :
    ((s.state d st).state e st).effective? = ((s.state e st).state d st).effective? := by
  -- neither of the two decides as one that defines the symbol
  have hlast : ∀ {d e : DocumentId}, d ≠ e → ¬ s.SpokenOfBy d → ¬ s.SpokenOfBy e →
      ((s.state d st).state e st).effective? =
        ((s.statements.entries.reverse.find? fun e => s.definitions.contains e.1).or
          (some (e, st))).map (·.2) := by
    intro d e hde hd he
    simp only [SpokenOfBy, not_or, Bool.not_eq_true] at hd he
    have he' : (s.state d st).statements.contains e = false := by
      rw [← contains_statements_forget_of_ne hde.symm, (isSpeech_state d st).forget_eq,
        contains_statements_forget_of_ne hde.symm, he.1]
    rw [effective?_eq, (statements_state_of_not_contains he' st).2,
      (statements_state_of_not_contains hd.1 st).2, definitions_state, definitions_state]
    simp [hd.2.1, he.2.1]
  rw [hlast hde hd he, hlast hde.symm he hd]
  cases s.statements.entries.reverse.find? fun e => s.definitions.contains e.1 <;> rfl

theorem effective?_callGrammar_comm (hde : d ≠ e) (hd : ¬ s.SpokenOfBy d)
    (he : ¬ s.SpokenOfBy e) (called called' : Bool) :
    ((s.callGrammar d called).callGrammar e called').effective? =
      ((s.callGrammar e called').callGrammar d called).effective? := by
  -- the second call is heard as it would have been without the first
  have hsecond : ∀ {d e : DocumentId} (called called' : Bool), ¬ s.SpokenOfBy d →
      (s.callGrammar d called).callGrammar e called' =
        if s.admitsGrammar && called' then (s.callGrammar d called).state e ⟨.grammar, none⟩
        else s.callGrammar d called := by
    intro d e called called' hd
    rw [← admitsGrammar_callGrammar (contains_definitions_of_not_spokenOfBy hd) called]
    rfl
  rw [hsecond called called' hd, hsecond called' called he]
  unfold callGrammar
  cases s.admitsGrammar <;> cases called <;> cases called' <;>
    simp [effective?_state_state hde hd he]

/-- What two mild documents call a symbol is what counts. -/
theorem effective?_hearAll_hearAll_of_mild (handleOf : String → Option SymbolId)
    (hd : s.definitions.contains d = false) (he : s.definitions.contains e = false)
    {ms ms' : List Move} (hmild : ∀ m ∈ ms, s.qualifiedName ∈ m.names → m.isMild = true)
    (hmild' : ∀ m ∈ ms', s.qualifiedName ∈ m.names → m.isMild = true) :
    ((s.hearAll handleOf d ms).hearAll handleOf e ms').effective? =
      ((s.callGrammar d (ms.any (·.callsGrammar s.qualifiedName))).callGrammar e
        (ms'.any (·.callsGrammar s.qualifiedName))).effective? := by
  have he' : (s.hearAll handleOf d ms).definitions.contains e = false := by
    rw [(admitsGrammar_hearAll_of_mild handleOf hd hmild).1, he]
  rw [hearAll_of_mild handleOf he' (by simpa using hmild'), effective?_addReferences,
    qualifiedName_hearAll, hearAll_of_mild handleOf hd hmild, callGrammar_addReferences,
    effective?_addReferences]

/-- The order of two mild documents is seen in their order only. -/
theorem reordered_hearAll_of_mild (hde : d ≠ e) {handleOf : String → Option SymbolId}
    (hd : ¬ s.SpokenOfBy d) (he : ¬ s.SpokenOfBy e) {ms ms' : List Move}
    (hmild : ∀ m ∈ ms, s.qualifiedName ∈ m.names → m.isMild = true)
    (hmild' : ∀ m ∈ ms', s.qualifiedName ∈ m.names → m.isMild = true) :
    ((s.hearAll handleOf d ms).hearAll handleOf e ms').Reordered d e
      ((s.hearAll handleOf e ms').hearAll handleOf d ms) := by
  have hd' := contains_definitions_of_not_spokenOfBy hd
  have he' := contains_definitions_of_not_spokenOfBy he
  obtain ⟨hdefinitions, hadmits⟩ := admitsGrammar_hearAll_of_mild handleOf hd' hmild
  obtain ⟨hdefinitions', hadmits'⟩ := admitsGrammar_hearAll_of_mild handleOf he' hmild'
  refine ⟨?_, ?_, ?_⟩
  · -- either of them may be the first to call the name a grammar
    rw [effective?_hearAll_hearAll_of_mild handleOf hd' he' hmild hmild',
      effective?_hearAll_hearAll_of_mild handleOf he' hd' hmild' hmild]
    exact effective?_callGrammar_comm hde hd he _ _
  · -- without the first document, the second has spoken alone
    rw [forget_hearAll]
    exact forget_hearAll_congr hde.symm handleOf he' (hdefinitions ▸ he') (by simp) hadmits
      (forget_hearAll handleOf d s ms) hmild'
  · rw [forget_hearAll]
    exact (forget_hearAll_congr hde handleOf hd' (hdefinitions' ▸ hd') (by simp) hadmits'
      (forget_hearAll handleOf e s ms') hmild).symm

/-- **Two documents may be heard in either order**, if the symbol takes no notice of one of
them, or both are mild about it. -/
theorem reordered_hearAll (hde : d ≠ e) {handleOf : String → Option SymbolId}
    (hd : ¬ s.SpokenOfBy d) (he : ¬ s.SpokenOfBy e) {ms ms' : List Move}
    (h : (∀ m ∈ ms, s.qualifiedName ∉ m.names) ∨ (∀ m ∈ ms', s.qualifiedName ∉ m.names) ∨
      ∀ m ∈ ms ++ ms', s.qualifiedName ∈ m.names → m.isMild = true) :
    ((s.hearAll handleOf d ms).hearAll handleOf e ms').Reordered d e
      ((s.hearAll handleOf e ms').hearAll handleOf d ms) := by
  rcases h with h | h | h
  · rw [hearAll_of_forall_not_mem handleOf d h,
      hearAll_of_forall_not_mem handleOf d (s := s.hearAll handleOf e ms') (by simpa using h)]
    exact .refl d e _
  · rw [hearAll_of_forall_not_mem handleOf e h,
      hearAll_of_forall_not_mem handleOf e (s := s.hearAll handleOf d ms) (by simpa using h)]
    exact .refl d e _
  · exact reordered_hearAll_of_mild hde hd he (fun m hm => h m (List.mem_append_left _ hm))
      fun m hm => h m (List.mem_append_right _ hm)

end

end Symbol

end GrammarIndex
