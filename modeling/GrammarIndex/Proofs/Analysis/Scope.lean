import GrammarIndex.Proofs.Analysis.Homes
import GrammarIndex.Proofs.Grammar.Leaves

/-!
# What is in scope

The scope of a pass is made of names alone: a grammar begins with none, and every heading that
is visited enters its own.  So once the headings of a grammar are visited, the scope has exactly
what the grammar declares, its parents in the order in which they are named, and nothing that an
earlier grammar has left.

## Main definitions

* `Scope.meet` — the scope after an occurrence.
* `Scope.Declares` — a scope has exactly what a grammar declares.

## Main results

* `Scope.namesOf_foldl_meet` — the names of every role, after several occurrences.
* `View.scope_walk` — the scope after a walk depends on nothing else.
* `Grammar.declares_headings` — **after the headings of a grammar, the scope has what it
  declares**, whatever was there before.
* `Grammar.foldl_meet_bodies` — the bodies of its rules leave it at that.
-/

namespace GrammarIndex

/-! ### Scopes and occurrences -/

namespace Scope

/-- The scope after an occurrence. -/
def meet (scope : Scope) (o : Occurrence) : Scope := scope.enter o.role o.token.text

/-- A name that is told by a literal is entered nowhere, and any other as it stands. -/
theorem enter_of_name? (scope : Scope) {o : Occurrence} {name : String} (h : o.name? = some name) :
    scope.enter o.role name = scope.meet o := by
  unfold meet
  cases hliteral : o.role.isLiteral with
  | false =>
    rw [Occurrence.name?_of_not_isLiteral hliteral] at h
    rw [Option.some.inj h]
  | true =>
    revert hliteral
    cases o.role with
    | use u => cases u <;> simp [Role.isLiteral, enter]
    | _ => simp [Role.isLiteral]

/-- **A scope that began empty lists the names of every role**, without repetitions. -/
theorem namesOf_foldl_meet {role : Role} (hentered : role.isEntered = true) {os : List Occurrence}
    (hos : ∀ o ∈ os, o.role ≠ .grammar) :
    (os.foldl meet .empty).namesOf role =
      ((os.filter (·.role = role)).map (·.token.text)).eraseDups := by
  -- from the end: the last occurrence is the last to be met
  induction os using List.reverseRecOn with
  | nil => exact namesOf_empty role
  | append_singleton os o ih =>
    have ho : o.role ≠ .grammar := hos o (by simp)
    have hrest := ih fun o' ho' => hos o' (List.mem_append_left _ ho')
    rw [List.foldl_append, List.foldl_cons, List.foldl_nil, meet, namesOf_enter _ hentered ho,
      hrest, List.filter_append, List.map_append]
    split
    · next hrole => simp [hrole, eraseDups_concat]
    · next hrole => simp [hrole]

end Scope

/-- The first parent that knows a name is the first one in the list of parents, whatever is named
twice there. -/
theorem Scope.importer?_eq_find? {scope : Scope} {parents : List Token}
    (h : scope.imports = (parents.map (·.text)).eraseDups) (kindOf : String → Option Kind)
    (name : String) (accepts : Kind → Bool) :
    scope.importer? kindOf name accepts =
      (parents.find? fun p => (kindOf (qualify p.text name)).any accepts).map (·.text) := by
  rw [importer?, h, find?_eraseDups, List.find?_map]
  rfl

/-- The scope after a walk is that before it, after the occurrences. -/
theorem View.scope_walk {v w : View} {os : List Occurrence} (h : v.walk os = .ok w) :
    w.scope = os.foldl Scope.meet v.scope := by
  induction os generalizing v with
  | nil => rw [Except.ok.inj h, List.foldl_nil]
  | cons o os ih =>
    obtain ⟨name, range, hname, -, hrest⟩ := exists_of_walk_cons h
    rw [ih hrest, List.foldl_cons, scope_record, Scope.enter_of_name? _ hname]

/-! ### Headings -/

/-- The scope has exactly what the grammar declares. -/
structure Scope.Declares (scope : Scope) (g : Grammar) : Prop where
  /-- The parents of the grammar, in the order of their first mention. -/
  imports : scope.imports = (g.parents.map (·.text)).eraseDups
  /-- The contexts of the grammar. -/
  contexts : ∀ name, name ∈ scope.contexts ↔ g.HasContext name
  /-- The terminals of the grammar. -/
  terminals : ∀ name, name ∈ scope.terminals ↔ g.HasTerminal name
  /-- The variables of the grammar. -/
  nonterminals : ∀ name, name ∈ scope.nonterminals ↔ g.HasVariable name

namespace Grammar

variable {g : Grammar}

theorem role_ne_grammar_of_mem_headings {o : Occurrence} (ho : o ∈ g.headings) :
    o.role ≠ .grammar := by
  unfold headings at ho
  rcases List.mem_append.mp ho with ho | ho
  · rcases List.mem_append.mp ho with ho | ho
    · obtain ⟨p, -, rfl⟩ := List.mem_map.mp ho
      simp
    · obtain ⟨entry, -, ho⟩ := List.mem_flatMap.mp ho
      exact (TerminalEntry.inner_of_mem_occurrences entry ho).role_ne_grammar
  · obtain ⟨rule, -, rfl⟩ := List.mem_map.mp ho
    simp

/-- The parents of a grammar are the headings that name one. -/
theorem filter_headings_parent (g : Grammar) :
    (g.headings.filter (·.role = .use .parent)).map (·.token.text) = g.parents.map (·.text) := by
  have hparents : (g.parents.map fun p =>
      (⟨g.name.text, .use .parent, p⟩ : Occurrence)).filter (·.role = .use .parent) =
        g.parents.map fun p => ⟨g.name.text, .use .parent, p⟩ := by
    simp
  have hterminals : (g.terminals.flatMap (·.occurrences g.name.text)).filter
      (·.role = .use .parent) = [] := by
    apply List.filter_eq_nil_iff.mpr
    intro o ho
    obtain ⟨entry, -, ho⟩ := List.mem_flatMap.mp ho
    simpa using (TerminalEntry.inner_of_mem_occurrences entry ho).role_ne_parent
  have hrules : (g.rules.map fun rule =>
      (⟨g.name.text, .nonterminal, rule.name⟩ : Occurrence)).filter
        (·.role = .use .parent) = [] := by
    simp
  rw [headings, List.filter_append, List.filter_append, hparents, hterminals, hrules,
    List.append_nil, List.append_nil, List.map_map]
  rfl

/-- **After the headings of a grammar, the scope has what the grammar declares.** -/
theorem declares_headings (g : Grammar) (scope : Scope) :
    ((⟨g.name.text, .grammar, g.name⟩ :: g.headings).foldl Scope.meet scope).Declares g := by
  -- the name of the grammar empties the scope
  show (g.headings.foldl Scope.meet .empty).Declares g
  have hnames : ∀ {role : Role}, role.isEntered = true →
      (g.headings.foldl Scope.meet .empty).namesOf role =
        ((g.headings.filter (·.role = role)).map (·.token.text)).eraseDups :=
    fun hentered => Scope.namesOf_foldl_meet hentered fun _ => role_ne_grammar_of_mem_headings
  have hmem : ∀ {role : Role}, role.isEntered = true → ∀ name,
      name ∈ (g.headings.foldl Scope.meet .empty).namesOf role ↔
        ∃ o ∈ g.headings, o.role = role ∧ o.token.text = name := by
    intro role hentered name
    simp [hnames hentered, and_assoc]
  refine ⟨(hnames rfl).trans (congrArg List.eraseDups g.filter_headings_parent), ?_, ?_, ?_⟩
  · intro name
    exact (hmem rfl name).trans exists_headings_context_iff
  · intro name
    exact (hmem rfl name).trans exists_headings_terminal_iff
  · intro name
    exact (hmem rfl name).trans exists_headings_nonterminal_iff

end Grammar

/-! ### Bodies -/

namespace Grammar

theorem inner_of_mem_bodies {g : Grammar} {o : Occurrence} (ho : o ∈ g.bodies) :
    o.Inner g.name.text := by
  rcases List.mem_append.mp ho with ho | ho
  · obtain ⟨rule, -, ho⟩ := List.mem_flatMap.mp ho
    exact Rule.inner_of_mem_occurrences ho
  · obtain ⟨setting, -, ho⟩ := List.mem_flatMap.mp ho
    exact Setting.inner_of_mem_occurrences ho

/-- Whatever stands in a body enters no name. -/
theorem enter_of_mem_bodies {g : Grammar} {o : Occurrence} (ho : o ∈ g.bodies) (scope : Scope)
    (name : String) : scope.enter o.role name = scope := by
  cases hrole : o.role with
  | use u =>
    cases u with
    | parent => exact absurd hrole (inner_of_mem_bodies ho).role_ne_parent
    | _ => rfl
  | parameter rule => rfl
  | _ =>
    obtain ⟨rule, hparameter⟩ := exists_parameter_of_mem_bodies ho (by rw [hrole]; rfl)
    exact absurd (hrole.symm.trans hparameter) (by simp)

/-- **The scope stays as it is in the bodies of a grammar.** -/
theorem foldl_meet_bodies {g : Grammar} {os : List Occurrence} (hos : os ⊆ g.bodies)
    (scope : Scope) : os.foldl Scope.meet scope = scope := by
  induction os with
  | nil => rfl
  | cons o os ih =>
    rw [List.cons_subset] at hos
    rw [List.foldl_cons, Scope.meet, enter_of_mem_bodies hos.1, ih hos.2]

end Grammar

end GrammarIndex
