import GrammarIndex.Proofs.Analysis.Handles

/-!
# The first word about a name

A document states the kind of a name once in an analysis, and what it has stated sticks.
A definition states a kind whatever other documents have said.  A use states one only where
they have said nothing else; but a use may come first, in an earlier grammar of the document,
and then the definition further down comes too late.

## Main definitions

* `Occurrence.defines?`, `Occurrence.suggests?` — the kind under which an occurrence defines a
  name, and the kind that it suggests by using the name.
* `definedAs?` — the kind under which a name is defined first.
* `usedAs?` — the kind that a use ahead of every definition has stated.

## Main results

* `foldl_effect_of_definedAs?` — what a name comes to that is defined.
* `kind?_of_mem_definitions` — **the kind of a symbol that an analysis defines is that of the
  first definition, unless a use was ahead of it.**
-/

namespace GrammarIndex

namespace Occurrence

/-- The kind under which an occurrence defines the name `n`, if it does. -/
def defines? (n : String) (o : Occurrence) : Option Kind :=
  o.name?.bind fun name =>
    match o.role.act o.grammar name with
    | .define q kind => if n = q then some kind else none
    | .use _ => none

/-- The kind that an occurrence suggests for the name `n` by using it, if it does. -/
def suggests? (n : String) (o : Occurrence) : Option Kind :=
  o.name?.bind fun name =>
    match o.role.act o.grammar name with
    | .define _ _ => none
    | .use u =>
      match u.suggestion? o.grammar name with
      | some (q, kind) => if n = q then some kind else none
      | none => none

variable {n : String} {o : Occurrence} {kind : Kind}

theorem effect_of_defines? (h : o.defines? n = some kind) (s : Standing) :
    effect n s o = s.settle kind := by
  obtain ⟨name, hname, h⟩ := Option.bind_eq_some_iff.mp h
  simp only [effect, hname, Role.effect]
  cases hact : o.role.act o.grammar name with
  | define q kind' =>
    rw [hact] at h
    obtain ⟨hn, hkind⟩ := Option.ite_none_right_eq_some.mp h
    rw [← Option.some.inj hkind]
    exact if_pos hn
  | use u =>
    rw [hact] at h
    exact absurd h (by simp)

/-- An occurrence that does not define a name at most suggests a kind for it. -/
theorem effect_of_not_defines? (h : o.defines? n = none) (s : Standing) :
    effect n s o = (o.suggests? n).elim s s.suggest := by
  cases hname : o.name? with
  | none => simp [effect, suggests?, hname]
  | some name =>
    simp only [defines?, hname, Option.bind_some] at h
    simp only [effect, suggests?, hname, Role.effect, Option.bind_some]
    cases hact : o.role.act o.grammar name with
    | define q kind =>
      simp only [hact, ite_eq_right_iff, reduceCtorEq, imp_false] at h
      exact if_neg h
    | use u =>
      cases hsuggestion : u.suggestion? o.grammar name with
      | none => simp only [hsuggestion, Option.elim_none]
      | some suggestion => by_cases hn : n = suggestion.1 <;> simp [hsuggestion, hn]

/-- Nothing is defined as an action or as a virtual symbol. -/
theorem kind_of_defines? (h : o.defines? n = some kind) : kind ≠ .action ∧ kind ≠ .virtual := by
  obtain ⟨name, -, h⟩ := Option.bind_eq_some_iff.mp h
  cases hrole : o.role <;> simp_all [Role.act] <;> simp [← h.2]

end Occurrence

/-- The kind under which the occurrences first define the name `n`. -/
def definedAs? (n : String) (os : List Occurrence) : Option Kind :=
  os.findSome? (Occurrence.defines? n)

/-- The kind that the first use of the name `n` has stated, among those ahead of every
definition of the name and that agree with the kind which the name has from other documents,
if it has one. -/
def usedAs? (known : Option Kind) (n : String) (os : List Occurrence) : Option Kind :=
  (os.takeWhile fun o => (o.defines? n).isNone).findSome? fun o =>
    (o.suggests? n).filter fun kind => known.all (· = kind)

/-! ### What a name comes to -/

/-- What the document has stated of a name sticks. -/
theorem foldl_effect_of_own {n : String} {s : Standing} (h : s.own = true)
    (os : List Occurrence) : os.foldl (Occurrence.effect n) s = s := by
  induction os with
  | nil => rfl
  | cons o os ih =>
    have hsettle : ∀ kind, s.settle kind = s := fun kind => if_pos h
    have hsuggest : ∀ kind, s.suggest kind = s := by
      intro kind
      rw [Standing.suggest, hsettle, ite_self]
    have hsame : Occurrence.effect n s o = s := by
      cases hdefines : o.defines? n with
      | some kind => rw [Occurrence.effect_of_defines? hdefines, hsettle]
      | none =>
        rw [Occurrence.effect_of_not_defines? hdefines]
        cases o.suggests? n with
        | none => rfl
        | some kind => exact hsuggest kind
    rw [List.foldl_cons, hsame]
    exact ih

/-- **What a name comes to that is defined**: the document has stated its kind, at the first
definition or at a use ahead of it. -/
theorem foldl_effect_of_definedAs? {n : String} {os : List Occurrence} {kind : Kind}
    (h : definedAs? n os = some kind) (known : Option Kind) :
    os.foldl (Occurrence.effect n) (.ofOthers known) =
      ⟨some ((usedAs? known n os).getD kind), true⟩ := by
  -- by induction on the occurrences, up to the first word that the others let stand
  induction os with
  | nil => exact absurd h (by simp [definedAs?])
  | cons o os ih =>
    unfold definedAs? at h ih
    unfold usedAs? at ih ⊢
    rw [List.findSome?_cons] at h
    rw [List.foldl_cons]
    cases hdefines : o.defines? n with
    | some kind' =>
      -- the first definition: whatever others have said, it states the kind
      rw [hdefines] at h
      obtain rfl : kind' = kind := Option.some.inj h
      rw [Occurrence.effect_of_defines? hdefines, foldl_effect_of_own rfl]
      simp [hdefines, Standing.settle, Standing.ofOthers]
    | none =>
      rw [hdefines] at h
      rw [Occurrence.effect_of_not_defines? hdefines,
        List.takeWhile_cons_of_pos (by rw [hdefines]; rfl), List.findSome?_cons]
      cases hsuggests : o.suggests? n with
      | none => exact ih h
      | some used =>
        rw [Option.elim_some]
        by_cases haccepts : known.all (· = used) = true
        · -- a use that agrees with the others comes first
          have hstated : (Standing.ofOthers known).suggest used = ⟨some used, true⟩ :=
            if_pos haccepts
          rw [hstated, foldl_effect_of_own rfl, Option.filter_some, if_pos haccepts]
          rfl
        · -- a use that does not agree says nothing
          have hrefused : (Standing.ofOthers known).suggest used = .ofOthers known :=
            if_neg haccepts
          rw [hrefused, Option.filter_some, if_neg haccepts]
          exact ih h

/-- Whatever a walk has defined, some occurrence has defined. -/
theorem View.exists_definedAs? {v w : View} {os : List Occurrence} (h : v.walk os = .ok w)
    {m : NamedMention} (hm : m ∈ w.definitions) :
    m ∈ v.definitions ∨ ∃ kind, definedAs? m.name os = some kind := by
  -- by induction on the occurrences: the definition comes from the first one, or from a later one
  induction os generalizing v with
  | nil =>
    rw [Except.ok.inj h]
    exact .inl hm
  | cons o os ih =>
    obtain ⟨name, range, hname, -, hrest⟩ := exists_of_walk_cons h
    have hlater : (∃ kind, definedAs? m.name os = some kind) →
        ∃ kind, definedAs? m.name (o :: os) = some kind := by
      rintro ⟨kind, hkind⟩
      rw [definedAs?, List.findSome?_cons]
      cases o.defines? m.name with
      | some kind' => exact ⟨kind', rfl⟩
      | none => exact ⟨kind, hkind⟩
    rcases ih hrest with hrecorded | hdefined
    · cases hact : o.role.act o.grammar name with
      | define q kind =>
        have hdefinitions : (v.record o.grammar o.role name range).definitions =
            v.definitions ++ [⟨q, range⟩] := by
          simp only [record, hact, define]
        rw [hdefinitions, List.mem_append, List.mem_singleton] at hrecorded
        refine hrecorded.imp_right fun hm => ⟨kind, ?_⟩
        have hdefines : o.defines? m.name = some kind := by
          rw [Occurrence.defines?, hname, Option.bind_some, hact, hm]
          exact if_pos rfl
        rw [definedAs?, List.findSome?_cons, hdefines]
      -- a use defines nothing, whatever it means
      | use u =>
        have hdefinitions : (v.record o.grammar o.role name range).definitions =
            v.definitions := by
          simp only [record, hact, recordUse]
          cases Scope.meaning _ _ o.grammar u name <;> cases u.suggestion? o.grammar name <;> rfl
        rw [hdefinitions] at hrecorded
        exact .inl hrecorded
    · exact .inr (hlater hdefined)

/-! ### Kinds of symbols that are defined -/

/-- **The kind of a symbol that an analysis defines.**  After any history, let an analysis
define a symbol.  Then the symbol has the kind under which its name is defined first in the
document, which is never that of an action or a virtual symbol, unless the name is used ahead
of that definition, as an action, a virtual symbol or a parent, and other documents have given
it this very kind or none.  The first such use then decides. -/
theorem kind?_of_mem_definitions {history : List Registry.Event} {source text : String}
    {d : DocumentId} {tree : Tree} {a : Analysis} {r : Registry}
    (h : analyze source (Registry.after history) d text tree = (.ok a, r)) {m : Mention}
    (hm : m ∈ a.definitions) :
    ∃ s kind, r.symbol? m.symbol = some s ∧
      definedAs? s.qualifiedName tree.occurrences = some kind ∧
      kind ≠ .action ∧ kind ≠ .virtual ∧
      s.kind? = some ((usedAs? (((Registry.after history).forget d).kindNamed? s.qualifiedName)
        s.qualifiedName tree.occurrences).getD kind) := by
  obtain ⟨w, hwalk, hshown⟩ := (Registry.wellFormed_after history).exists_view_of_analyze h
  obtain ⟨n, hn, ⟨s, hs, hname⟩, -⟩ := exists_of_forall₂ hshown.readsAs.definitions hm
  obtain ⟨kind, hkind⟩ := (View.exists_definedAs? hwalk hn).resolve_left List.not_mem_nil
  rw [← hname] at hkind
  obtain ⟨o, -, hdefines⟩ := List.exists_of_findSome?_eq_some hkind
  have hstanding := (View.standing_walk hwalk s.qualifiedName).trans
    (foldl_effect_of_definedAs? hkind _)
  refine ⟨s, kind, hs, hkind, (Occurrence.kind_of_defines? hdefines).1,
    (Occurrence.kind_of_defines? hdefines).2, ?_⟩
  rw [← hshown.kindOf_eq hs, View.kindOf, hstanding]

/-- The grammar `G` with an action `X`. -/
def usesX : Grammar :=
  ⟨⟨"G", ⟨0, 1⟩⟩, [], [], [], [⟨⟨"S", ⟨2, 3⟩⟩, [], .action ⟨"X", ⟨5, 6⟩⟩⟩]⟩

/-- The grammar `G` once more, where `X` is a terminal. -/
def definesX : Grammar :=
  ⟨⟨"G", ⟨8, 9⟩⟩, [], [], [.terminal ⟨"X", ⟨10, 11⟩⟩ (.atom ⟨"x", ⟨12, 13⟩⟩)], []⟩

/-- Another document has an action `G.X`, which does not keep this one from defining a
terminal. -/
theorem kind?_of_mem_definitions_usedElsewhere :
    let history := [Registry.Event.analysis "hime" ⟨1⟩ "G{S>@X}" (.ok ⟨[usesX]⟩)]
    let tree : Tree := ⟨[definesX]⟩
    ∃ a r, analyze "hime" (Registry.after history) ⟨0⟩ "G{S>@X} G{X>x}" tree = (.ok a, r) ∧
      ⟨⟨2⟩, ⟨⟨0, 10⟩, ⟨0, 11⟩⟩⟩ ∈ a.definitions ∧
      ∃ s kind, r.symbol? ⟨2⟩ = some s ∧
        definedAs? s.qualifiedName tree.occurrences = some kind ∧
        kind ≠ .action ∧ kind ≠ .virtual ∧
        s.kind? = some ((usedAs? (((Registry.after history).forget ⟨0⟩).kindNamed?
          s.qualifiedName) s.qualifiedName tree.occurrences).getD kind) := by
  intro history tree
  have hsome : (analyze "hime" (Registry.after history) ⟨0⟩ "G{S>@X} G{X>x}"
      tree).1.toOption.any (⟨⟨2⟩, ⟨⟨0, 10⟩, ⟨0, 11⟩⟩⟩ ∈ ·.definitions) = true := by decide +kernel
  obtain ⟨⟨answer, r⟩, houtcome⟩ :
    ∃ outcome, analyze "hime" (Registry.after history) ⟨0⟩ "G{S>@X} G{X>x}" tree = outcome :=
      ⟨_, rfl⟩
  rw [houtcome] at hsome
  cases answer with
  | error fault => exact absurd hsome (by simp [Except.toOption])
  | ok a =>
    have hm : ⟨⟨2⟩, ⟨⟨0, 10⟩, ⟨0, 11⟩⟩⟩ ∈ a.definitions := by simpa [Except.toOption] using hsome
    exact ⟨a, r, houtcome, hm, kind?_of_mem_definitions houtcome hm⟩

/-- **A use that comes first decides**: a document with both grammars defines `G.X`, first and
only as a terminal, and the kind of `G.X` is that of an action. -/
theorem kind?_ne_definedAs?_usedFirst :
    let tree : Tree := ⟨[usesX, definesX]⟩
    ∃ a s, analyze "hime" (Registry.after []) ⟨0⟩ "G{S>@X} G{X>x}" tree =
        (.ok a, (analyze "hime" (Registry.after []) ⟨0⟩ "G{S>@X} G{X>x}" tree).2) ∧
      ⟨⟨2⟩, ⟨⟨0, 10⟩, ⟨0, 11⟩⟩⟩ ∈ a.definitions ∧
      (analyze "hime" (Registry.after []) ⟨0⟩ "G{S>@X} G{X>x}" tree).2.symbol? ⟨2⟩ = some s ∧
      definedAs? s.qualifiedName tree.occurrences = some .terminal ∧ s.kind? = some .action := by
  intro tree
  refine ⟨⟨⟨0⟩, [⟨⟨0⟩, ⟨⟨0, 0⟩, ⟨0, 1⟩⟩⟩, ⟨⟨1⟩, ⟨⟨0, 2⟩, ⟨0, 3⟩⟩⟩, ⟨⟨0⟩, ⟨⟨0, 8⟩, ⟨0, 9⟩⟩⟩,
      ⟨⟨2⟩, ⟨⟨0, 10⟩, ⟨0, 11⟩⟩⟩], [⟨⟨2⟩, ⟨⟨0, 5⟩, ⟨0, 6⟩⟩⟩], []⟩,
    ⟨⟨2⟩, "G.X", ⟨[(⟨0⟩, ⟨.action, some ⟨0⟩⟩)]⟩, ⟨[(⟨0⟩, [⟨⟨0, 10⟩, ⟨0, 11⟩⟩])]⟩,
      ⟨[(⟨0⟩, [⟨⟨0, 5⟩, ⟨0, 6⟩⟩])]⟩⟩, ?_⟩
  decide +kernel

end GrammarIndex
