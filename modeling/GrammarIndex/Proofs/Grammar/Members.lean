import GrammarIndex.Grammar.Occurrence

/-!
# The grammar of an occurrence

Every occurrence of a document belongs to one of its grammars.  It declares the grammar,
or names one of its parents, or has its place in some section.

## Main results

* `Tree.exists_memberOf` — **every occurrence belongs to a grammar of the document.**
-/

namespace GrammarIndex

/-- The occurrence belongs to the grammar. -/
structure Occurrence.MemberOf (o : Occurrence) (g : Grammar) : Prop where
  /-- It is an occurrence of the grammar of this name. -/
  grammar_eq : o.grammar = g.name.text
  /-- Where it declares a grammar, it is the name of this one. -/
  token_eq : o.role = .grammar → o.token = g.name
  /-- Where it names a parent, the grammar has this parent. -/
  mem_parents : o.role = .use .parent → o.token ∈ g.parents

namespace Occurrence

/-- An occurrence that is neither the name of a grammar nor a parent. -/
structure Inner (grammar : String) (o : Occurrence) : Prop where
  /-- It is an occurrence of this grammar. -/
  grammar_eq : o.grammar = grammar
  /-- It declares no grammar. -/
  role_ne_grammar : o.role ≠ .grammar
  /-- It names no parent. -/
  role_ne_parent : o.role ≠ .use .parent

theorem Inner.memberOf {g : Grammar} {o : Occurrence} (h : o.Inner g.name.text) : o.MemberOf g :=
  ⟨h.grammar_eq, fun hrole => absurd hrole h.role_ne_grammar,
    fun hrole => absurd hrole h.role_ne_parent⟩

end Occurrence

/-! ### Sections -/

mutual

theorem TerminalEntry.inner_of_mem_occurrences {grammar : String} {o : Occurrence} :
    ∀ entry : TerminalEntry, o ∈ entry.occurrences grammar → o.Inner grammar
  | .context name entries => by
    intro ho
    rw [TerminalEntry.occurrences] at ho
    rcases List.mem_cons.mp ho with rfl | ho
    · exact ⟨rfl, by simp, by simp⟩
    · exact TerminalEntry.inner_of_mem_occurrencesOfAll entries ho
  | .terminal name definition => by
    intro ho
    rw [TerminalEntry.occurrences] at ho
    rcases List.mem_cons.mp ho with rfl | ho
    · exact ⟨rfl, by simp, by simp⟩
    · obtain ⟨token, -, rfl⟩ := List.mem_map.mp ho
      exact ⟨rfl, by simp, by simp⟩

theorem TerminalEntry.inner_of_mem_occurrencesOfAll {grammar : String} {o : Occurrence} :
    ∀ entries : List TerminalEntry,
      o ∈ TerminalEntry.occurrencesOfAll grammar entries → o.Inner grammar
  | [] => by
    intro ho
    rw [TerminalEntry.occurrencesOfAll] at ho
    exact absurd ho List.not_mem_nil
  | entry :: entries => by
    intro ho
    rw [TerminalEntry.occurrencesOfAll] at ho
    rcases List.mem_append.mp ho with ho | ho
    · exact TerminalEntry.inner_of_mem_occurrences entry ho
    · exact TerminalEntry.inner_of_mem_occurrencesOfAll entries ho

end

mutual

/-- A rule body uses bare names in one way, and other names in three. -/
theorem RuleExpr.use_cases {bare : Use} {u : Use × Token} : ∀ e : RuleExpr, u ∈ e.uses bare →
    u.1 = bare ∨ u.1 ∈ [Use.context, Use.action, Use.virtual]
  | .contextSwitch t body => by
    intro hu
    rw [RuleExpr.uses] at hu
    rcases List.mem_cons.mp hu with rfl | hu
    · exact .inr (by simp)
    · exact RuleExpr.use_cases body hu
  | .action t => by
    intro hu
    rw [RuleExpr.uses] at hu
    rw [List.mem_singleton.mp hu]
    exact .inr (by simp)
  | .virtual t => by
    intro hu
    rw [RuleExpr.uses] at hu
    rw [List.mem_singleton.mp hu]
    exact .inr (by simp)
  | .name t => by
    intro hu
    rw [RuleExpr.uses] at hu
    rw [List.mem_singleton.mp hu]
    exact .inl rfl
  | .literal t => by
    intro hu
    rw [RuleExpr.uses] at hu
    exact absurd hu List.not_mem_nil
  | .call t arguments => by
    intro hu
    rw [RuleExpr.uses] at hu
    rcases List.mem_cons.mp hu with rfl | hu
    · exact .inl rfl
    · exact RuleExpr.use_cases_of_all arguments hu
  | .sequence parts => by
    rw [RuleExpr.uses]
    exact RuleExpr.use_cases_of_all parts
  | .alternation parts => by
    rw [RuleExpr.uses]
    exact RuleExpr.use_cases_of_all parts
  | .repeated part _ => by
    rw [RuleExpr.uses]
    exact RuleExpr.use_cases part
  | .tree part _ => by
    rw [RuleExpr.uses]
    exact RuleExpr.use_cases part

theorem RuleExpr.use_cases_of_all {bare : Use} {u : Use × Token} : ∀ es : List RuleExpr,
    u ∈ RuleExpr.usesOfAll bare es → u.1 = bare ∨ u.1 ∈ [Use.context, Use.action, Use.virtual]
  | [] => by
    intro hu
    rw [RuleExpr.usesOfAll] at hu
    exact absurd hu List.not_mem_nil
  | e :: es => by
    intro hu
    rw [RuleExpr.usesOfAll] at hu
    rcases List.mem_append.mp hu with hu | hu
    · exact RuleExpr.use_cases e hu
    · exact RuleExpr.use_cases_of_all es hu

end

theorem Rule.inner_of_mem_occurrences {grammar : String} {rule : Rule} {o : Occurrence}
    (ho : o ∈ rule.occurrences grammar) : o.Inner grammar := by
  rcases List.mem_append.mp ho with ho | ho
  · obtain ⟨p, -, rfl⟩ := List.mem_map.mp ho
    exact ⟨rfl, by simp, by simp⟩
  · obtain ⟨u, hu, rfl⟩ := List.mem_map.mp ho
    refine ⟨rfl, by simp, ?_⟩
    -- no use within a body is that of a parent
    intro hrole
    have hparent : u.1 = .parent := Role.use.inj hrole
    rcases rule.body.use_cases hu with hbare | hother
    · rw [hparent] at hbare
      exact absurd hbare (by simp [Rule.bareUse])
    · rw [hparent] at hother
      exact absurd hother (by simp)

theorem Setting.inner_of_mem_occurrences {grammar : String} {setting : Setting} {o : Occurrence}
    (ho : o ∈ setting.occurrences grammar) : o.Inner grammar := by
  unfold Setting.occurrences at ho
  split at ho
  · rw [List.mem_singleton.mp ho]
    exact ⟨rfl, by simp, by simp⟩
  · split at ho
    · rw [List.mem_singleton.mp ho]
      exact ⟨rfl, by simp, by simp⟩
    · exact absurd ho List.not_mem_nil

/-! ### Grammars and documents -/

theorem Grammar.memberOf_of_mem_occurrences {g : Grammar} {o : Occurrence}
    (ho : o ∈ g.occurrences) : o.MemberOf g := by
  simp only [Grammar.occurrences, List.mem_cons, List.mem_append, List.mem_map,
    List.mem_flatMap] at ho
  rcases ho with rfl |
    ((((⟨p, hp, rfl⟩ | ⟨entry, -, hentry⟩) | ⟨rule, -, rfl⟩) | ⟨rule, -, hrule⟩) |
      ⟨setting, -, hsetting⟩)
  · exact ⟨rfl, fun _ => rfl, by simp⟩
  · exact ⟨rfl, by simp, fun _ => hp⟩
  · exact (entry.inner_of_mem_occurrences hentry).memberOf
  · exact Occurrence.Inner.memberOf ⟨rfl, by simp, by simp⟩
  · exact (Rule.inner_of_mem_occurrences hrule).memberOf
  · exact (Setting.inner_of_mem_occurrences hsetting).memberOf

/-- **Every occurrence belongs to a grammar of the document.** -/
theorem Tree.exists_memberOf {tree : Tree} {o : Occurrence} (ho : o ∈ tree.occurrences) :
    ∃ g ∈ tree.grammars, o.MemberOf g := by
  obtain ⟨g, hg, ho⟩ := List.mem_flatMap.mp ho
  exact ⟨g, hg, Grammar.memberOf_of_mem_occurrences ho⟩

end GrammarIndex
