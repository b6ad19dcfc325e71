import GrammarIndex.Proofs.Analysis.FirstWord
import GrammarIndex.Proofs.Analysis.Replacement
import GrammarIndex.Proofs.Analysis.Resolution
import GrammarIndex.Proofs.Analysis.Rounds
import GrammarIndex.Proofs.Analysis.Stating
import GrammarIndex.Proofs.Grammar.Declared

/-!
# What an analysis defines

An analysis that succeeds defines every name that the document declares, at the range of the
token that declares it, and nothing else.  It has stated a kind for each of them: at the first
definition, or at a use ahead of it.

## Main definitions

* `Registry.Defines` — a registry has the definitions that a document declares.

## Main results

* `View.exists_definition_of_walk`, `View.exists_declaration_of_walk` — a walk defines what is
  declared on it, and nothing else.
* `Registry.WellFormed.defines_analyze` — **an analysis that succeeds defines what the document
  declares.**
-/

namespace GrammarIndex

/-- An occurrence that is no use defines its name in the scope of its owner. -/
theorem Occurrence.defined?_eq {o : Occurrence} (huse : o.role.isUse = false) (name : String) :
    o.role.defined? o.grammar name = some (qualifyIn o.owner? name) := by
  obtain ⟨grammar, role, token⟩ := o
  cases role with
  | use u => exact absurd huse (by simp [Role.isUse])
  | _ => rfl

theorem Role.defined?_eq_none {role : Role} (huse : role.isUse = true) (grammar name : String) :
    role.defined? grammar name = none := by
  cases role with
  | use u => rfl
  | _ => exact absurd huse (by simp [isUse])

/-- Its name is written as it stands. -/
theorem Role.isLiteral_of_not_isUse {role : Role} (huse : role.isUse = false) :
    role.isLiteral = false := by
  cases role with
  | use u => exact absurd huse (by simp [isUse])
  | _ => rfl

namespace View

variable {v w : View} {os : List Occurrence}

/-- No definition is taken back. -/
theorem definitions_subset_of_walk (h : v.walk os = .ok w) : v.definitions ⊆ w.definitions := by
  induction os generalizing v with
  | nil => exact Except.ok.inj h ▸ List.Subset.refl _
  | cons o os ih =>
    obtain ⟨name, range, -, -, hrest⟩ := exists_of_walk_cons h
    intro m hm
    apply ih hrest
    rw [definitions_record]
    exact List.mem_append_left _ hm

/-- A walk that succeeds defines what is declared on it. -/
theorem exists_definition_of_walk (h : v.walk os = .ok w) {o : Occurrence} (ho : o ∈ os)
    (huse : o.role.isUse = false) :
    ∃ range, v.lines.range? o.token.span = some range ∧
      ⟨qualifyIn o.owner? o.token.text, range⟩ ∈ w.definitions := by
  induction os generalizing v with
  | nil => exact absurd ho List.not_mem_nil
  | cons o' os ih =>
    obtain ⟨name, range, hname, hrange, hrest⟩ := exists_of_walk_cons h
    rcases List.mem_cons.mp ho with rfl | ho
    · rw [Occurrence.name?_of_not_isLiteral (Role.isLiteral_of_not_isUse huse)] at hname
      obtain rfl : o.token.text = name := Option.some.inj hname
      refine ⟨range, hrange, definitions_subset_of_walk hrest ?_⟩
      rw [definitions_record, Occurrence.defined?_eq huse]
      exact List.mem_append_right _ (List.mem_singleton_self _)
    · have hlater := ih hrest ho
      rwa [lines_record] at hlater

/-- It defines nothing else. -/
theorem exists_declaration_of_walk (h : v.walk os = .ok w) {m : NamedMention}
    (hm : m ∈ w.definitions) :
    m ∈ v.definitions ∨ ∃ o ∈ os, o.role.isUse = false ∧
      v.lines.range? o.token.span = some m.range ∧ m.name = qualifyIn o.owner? o.token.text := by
  -- by induction on the occurrences; what is new comes from the one that is looked at
  induction os generalizing v with
  | nil => exact .inl (Except.ok.inj h ▸ hm)
  | cons o os ih =>
    obtain ⟨name, range, hname, hrange, hrest⟩ := exists_of_walk_cons h
    rcases ih hrest with hrecorded | ⟨o', ho', hlater⟩
    · rw [definitions_record, List.mem_append] at hrecorded
      rcases hrecorded with hbefore | hnew
      · exact .inl hbefore
      · refine .inr ⟨o, List.mem_cons_self, ?_⟩
        cases huse : o.role.isUse with
        | true =>
          rw [Role.defined?_eq_none huse] at hnew
          exact absurd hnew List.not_mem_nil
        | false =>
          rw [Occurrence.name?_of_not_isLiteral (Role.isLiteral_of_not_isUse huse)] at hname
          obtain rfl : o.token.text = name := Option.some.inj hname
          rw [Occurrence.defined?_eq huse] at hnew
          obtain rfl := List.mem_singleton.mp hnew
          exact ⟨rfl, hrange, rfl⟩
    · rw [lines_record] at hlater
      exact .inr ⟨o', List.mem_cons_of_mem _ ho', hlater⟩

end View

namespace Registry

variable {r₀ r : Registry} {source text : String} {d : DocumentId} {tree : Tree} {a : Analysis}
  {i : SymbolId} {s : Symbol}

/-- The ranges of a symbol in a document that was just analysed are those that its view has. -/
theorem Shown.mem_definitionsIn_iff {w : View} (hshown : r.Shown a w) (hreflects : r.Reflects d a)
    (hs : r.symbol? i = some s) {range : Range} :
    range ∈ s.definitionsIn d ↔ ⟨s.qualifiedName, range⟩ ∈ w.definitions := by
  rw [hreflects.definitionsIn_eq hs, List.mem_eraseDups]
  exact hshown.mem_rangesOf_iff hs hshown.readsAs.definitions

/-- What an analysis of a document leaves: the document defines the names that it declares, at
the tokens that declare them, and has stated a kind for each. -/
structure Defines (r : Registry) (d : DocumentId) (text : String) (tree : Tree) : Prop where
  /-- Every name that is declared has a symbol that is defined there. -/
  exists_symbol : ∀ {t : Token} {owner : Option String}, tree.Introduces t owner →
    ∃ range, (LineIndex.ofText text).range? t.span = some range ∧ ∃ i s, r.symbol? i = some s ∧
      s.qualifiedName = qualifyIn owner t.text ∧ range ∈ s.definitionsIn d
  /-- Nothing else is defined. -/
  exists_declared : ∀ {i : SymbolId} {s : Symbol}, r.symbol? i = some s →
    ∀ range ∈ s.definitionsIn d, ∃ t owner, tree.Introduces t owner ∧
      s.qualifiedName = qualifyIn owner t.text ∧
      (LineIndex.ofText text).range? t.span = some range
  /-- A symbol that is defined has a kind from the document. -/
  stated : ∀ {i : SymbolId} {s : Symbol}, r.symbol? i = some s → s.definitionsIn d ≠ [] →
    s.statements.contains d = true

/-- **An analysis that succeeds defines what the document declares.** -/
theorem WellFormed.defines_analyze (h₀ : r₀.WellFormed)
    (h : GrammarIndex.analyze source r₀ d text tree = (.ok a, r)) : r.Defines d text tree := by
  obtain ⟨w, hwalk, hshown⟩ := h₀.exists_view_of_analyze h
  have hreflects : r.Reflects d a := by
    have hattempt := h₀.reflects_analyze source d text tree
    rwa [h] at hattempt
  -- every name token gave a definition; no other did; and each was stated
  refine ⟨fun {t owner} ht => ?_, fun {i s} hs range hrange => ?_, fun {i s} hs hne => ?_⟩
  · obtain ⟨o, ho, huse, rfl, rfl⟩ := Tree.introduces_iff.mp ht
    obtain ⟨range, hrange, hdefined⟩ := View.exists_definition_of_walk hwalk ho huse
    obtain ⟨m, -, ⟨s, hs, hname⟩, -⟩ := exists_of_forall₂ hshown.readsAs.definitions.flip hdefined
    refine ⟨range, hrange, m.symbol, s, hs, hname, ?_⟩
    exact (hshown.mem_definitionsIn_iff hreflects hs).mpr (hname ▸ hdefined)
  · have hdefined := (hshown.mem_definitionsIn_iff hreflects hs).mp hrange
    obtain ⟨o, ho, huse, hspan, hname⟩ :=
      (View.exists_declaration_of_walk hwalk hdefined).resolve_left List.not_mem_nil
    exact ⟨o.token, o.owner?, Tree.introduces_iff.mpr ⟨o, ho, huse, rfl, rfl⟩, hname, hspan⟩
  · -- what is defined was stated, since a definition states a kind first
    obtain ⟨range, hrange⟩ := List.exists_mem_of_ne_nil _ hne
    have hdefined := (hshown.mem_definitionsIn_iff hreflects hs).mp hrange
    obtain ⟨kind, hkind⟩ :=
      (View.exists_definedAs? hwalk hdefined).resolve_left List.not_mem_nil
    have hok : (GrammarIndex.analyze source r₀ d text tree).1 = .ok a := congrArg Prod.fst h
    have hown := congrArg Standing.own
      ((h₀.standing_analyze hok s.qualifiedName).trans (foldl_effect_of_definedAs? hkind _))
    rw [h, own_standing, symbolNamed?, hshown.wellFormed.lookup?_eq_some_iff.mpr ⟨s, hs, rfl⟩,
      Option.bind_some, hs] at hown
    exact hown

/-! ### Later events -/

/-- The document that the event is about. -/
def Event.document? : Event → Option DocumentId
  | .operation o => o.document?
  | .analysis _ d _ _ => some d

/-- A whole document is replaced or forgotten, and the others say what they said. -/
theorem WellFormed.keepsOthers_run (h : r.WellFormed) {event : Event}
    (hwhole : event.isWhole = true) :
    ∃ d', event.document? = some d' ∧ r.KeepsOthers d' (event.run r) := by
  have hforget : ∀ d', r.KeepsOthers d' (r.forget d') := by
    intro d'
    have hmention : (r.forget d').forget d' = (r.forget d').mention [] := forget_forget r d'
    exact h.keepsOthers_of_forget_eq (h.forget d') hmention
  cases event with
  | operation o =>
    cases o with
    | forget d' => exact ⟨d', rfl, hforget d'⟩
    | _ => exact absurd hwhole (by simp [Event.isWhole])
  | analysis source d' text parsed =>
    refine ⟨d', rfl, ?_⟩
    cases parsed with
    | ok tree =>
      exact h.keepsOthers_of_forget_eq (h.analyze source d' text tree)
        (h.forget_analyze source d' text tree)
    | error e => exact hforget d'

namespace Defines

/-- What other documents say changes nothing about the definitions of a document. -/
theorem keepsOthers (h : r.Defines d text tree) {d' : DocumentId} (hd : d' ≠ d) {r' : Registry}
    (hkeeps : r.KeepsOthers d' r') : r'.Defines d text tree := by
  -- a symbol that is defined in the document was there, and is defined where it was
  have hbefore : ∀ {i s'}, r'.symbol? i = some s' → s'.definitionsIn d ≠ [] →
      ∃ s, r.symbol? i = some s ∧ s.SameBut d' s' := by
    intro i s' hs' hne
    cases hs : r.symbol? i with
    | none =>
      obtain ⟨range, hrange⟩ := List.exists_mem_of_ne_nil _ hne
      have hspoken := Symbol.spokenOfBy_of_mem (List.mem_append_left _ hrange)
      exact absurd hspoken (hkeeps.created hs hs' d hd.symm)
    | some s =>
      obtain ⟨s'', hs'', hsame⟩ := hkeeps.symbol? hs
      obtain rfl : s' = s'' := Option.some.inj (hs'.symm.trans hs'')
      exact ⟨s, rfl, hsame⟩
  refine ⟨fun {t owner} ht => ?_, fun {i s'} hs' range hrange => ?_, fun {i s'} hs' hne => ?_⟩
  · obtain ⟨range, hspan, i, s, hs, hname, hrange⟩ := h.exists_symbol ht
    obtain ⟨s', hs', hsame⟩ := hkeeps.symbol? hs
    refine ⟨range, hspan, i, s', hs', hsame.qualifiedName_eq.trans hname, ?_⟩
    rw [hsame.definitionsIn_eq hd]
    exact hrange
  · obtain ⟨s, hs, hsame⟩ := hbefore hs' (List.ne_nil_of_mem hrange)
    rw [hsame.definitionsIn_eq hd] at hrange
    rw [hsame.qualifiedName_eq]
    exact h.exists_declared hs range hrange
  · -- no statement of the document is lost
    obtain ⟨s, hs, hsame⟩ := hbefore hs' hne
    rw [hsame.definitionsIn_eq hd] at hne
    rw [hsame.contains_statements_eq hd]
    exact h.stated hs hne

theorem run (h : r.Defines d text tree) (hwf : r.WellFormed) {event : Event}
    (hwhole : event.isWhole = true) (hother : event.document? ≠ some d) :
    (event.run r).Defines d text tree := by
  obtain ⟨d', hdocument, hkeeps⟩ := hwf.keepsOthers_run hwhole
  refine h.keepsOthers ?_ hkeeps
  rintro rfl
  exact hother hdocument

end Defines

/-- **The definitions of a document stay** as long as nothing happens to it: what was defined by
its latest analysis is defined after whatever has happened to other documents since. -/
theorem defines_after {before later : List Event}
    (hok : (GrammarIndex.analyze source (after before) d text tree).1 = .ok a)
    (hwhole : ∀ event ∈ later, event.isWhole = true)
    (hothers : ∀ event ∈ later, event.document? ≠ some d) :
    (after (before ++ .analysis source d text (.ok tree) :: later)).Defines d text tree := by
  induction later using List.reverseRecOn with
  | nil =>
    rw [after, List.foldl_append]
    exact (wellFormed_after before).defines_analyze (Prod.ext hok rfl)
  | append_singleton later event ih =>
    have hdefines := ih (fun e he => hwhole e (List.mem_append_left _ he))
      fun e he => hothers e (List.mem_append_left _ he)
    have hlast : event ∈ later ++ [event] :=
      List.mem_append_right _ (List.mem_singleton_self event)
    rw [after, ← List.cons_append, ← List.append_assoc, List.foldl_append]
    exact hdefines.run (wellFormed_after _) (hwhole event hlast) (hothers event hlast)

end Registry

end GrammarIndex
