import GrammarIndex.Proofs.Grammar.Members

/-!
# What occurrences refer to

An occurrence is told by the names around it: a parameter by its rule, a use in the
definition of a terminal by that terminal, a bare name in a rule by the rule and its
parameters.  Each of these names is declared by an occurrence of the same grammar, and the
occurrences of a grammar follow on its name without any other in between.

## Main definitions

* `Role.anchors` — the declarations that a role refers to.
* `Continues g os` — every occurrence belongs to the grammar declared last, at first `g`.

## Main results

* `Tree.exists_anchor`, `Tree.exists_grammar` — **whatever a role refers to is declared.**
* `Tree.continues_occurrences` — grammars come one after the other.
-/

namespace GrammarIndex

/-! ### Declarations -/

/-- The declarations that a role refers to: the role and the text of each. -/
def Role.anchors : Role → List (Role × String)
  | .parameter rule => [(.nonterminal, rule)]
  | .use (.lexical owner) => [(.terminal, owner)]
  | .use (.symbol rule parameters) =>
    (.nonterminal, rule) :: parameters.map fun p => (.parameter rule, p)
  | _ => []

/-- Whatever the occurrence refers to is declared in the list. -/
def Occurrence.AnchoredIn (os : List Occurrence) (o : Occurrence) : Prop :=
  ∀ a ∈ o.role.anchors, ∃ o' ∈ os, o'.grammar = o.grammar ∧ o'.role = a.1 ∧ o'.token.text = a.2

namespace Occurrence

theorem AnchoredIn.mono {os os' : List Occurrence} {o : Occurrence} (h : o.AnchoredIn os)
    (hsub : os ⊆ os') : o.AnchoredIn os' := by
  intro a ha
  obtain ⟨o', ho', hanchor⟩ := h a ha
  exact ⟨o', hsub ho', hanchor⟩

theorem anchoredIn_of_anchors_eq_nil {os : List Occurrence} {o : Occurrence}
    (h : o.role.anchors = []) : o.AnchoredIn os := by
  intro a ha
  rw [h] at ha
  exact absurd ha List.not_mem_nil

end Occurrence

mutual

theorem TerminalEntry.anchoredIn_occurrences {grammar : String} {o : Occurrence} :
    ∀ entry : TerminalEntry, o ∈ entry.occurrences grammar →
      o.AnchoredIn (entry.occurrences grammar)
  | .context name entries => by
    intro ho
    rw [TerminalEntry.occurrences] at ho ⊢
    rcases List.mem_cons.mp ho with rfl | ho
    · exact Occurrence.anchoredIn_of_anchors_eq_nil rfl
    · exact (TerminalEntry.anchoredIn_occurrencesOfAll entries ho).mono
        (List.subset_cons_self _ _)
  | .terminal name definition => by
    intro ho
    rw [TerminalEntry.occurrences] at ho ⊢
    rcases List.mem_cons.mp ho with rfl | ho
    · exact Occurrence.anchoredIn_of_anchors_eq_nil rfl
    · obtain ⟨token, -, rfl⟩ := List.mem_map.mp ho
      intro a ha
      rw [List.mem_singleton.mp ha]
      -- the uses of a definition are told by its own name, which comes first
      exact ⟨_, List.mem_cons_self, rfl, rfl, rfl⟩

theorem TerminalEntry.anchoredIn_occurrencesOfAll {grammar : String} {o : Occurrence} :
    ∀ entries : List TerminalEntry, o ∈ TerminalEntry.occurrencesOfAll grammar entries →
      o.AnchoredIn (TerminalEntry.occurrencesOfAll grammar entries)
  | [] => by
    intro ho
    rw [TerminalEntry.occurrencesOfAll] at ho
    exact absurd ho List.not_mem_nil
  | entry :: entries => by
    intro ho
    rw [TerminalEntry.occurrencesOfAll] at ho ⊢
    rcases List.mem_append.mp ho with ho | ho
    · exact (TerminalEntry.anchoredIn_occurrences entry ho).mono (List.subset_append_left _ _)
    · exact (TerminalEntry.anchoredIn_occurrencesOfAll entries ho).mono
        (List.subset_append_right _ _)

end

/-- A rule refers to its own name and to its parameters. -/
theorem Rule.anchoredIn {grammar : String} {rule : Rule} {os : List Occurrence}
    (hname : ⟨grammar, .nonterminal, rule.name⟩ ∈ os)
    (hsub : rule.occurrences grammar ⊆ os) {o : Occurrence} (ho : o ∈ rule.occurrences grammar) :
    o.AnchoredIn os := by
  rcases List.mem_append.mp ho with ho | ho
  · -- a parameter is told by the name of its rule
    obtain ⟨p, -, rfl⟩ := List.mem_map.mp ho
    intro a ha
    rw [List.mem_singleton.mp ha]
    exact ⟨_, hname, rfl, rfl, rfl⟩
  · obtain ⟨u, hu, rfl⟩ := List.mem_map.mp ho
    rcases rule.body.use_cases hu with hbare | hother
    · -- a bare name is told by the rule and by the parameters that may hide the symbol
      intro a ha
      simp only [hbare, Rule.bareUse, Role.anchors, List.map_map] at ha
      rcases List.mem_cons.mp ha with rfl | ha
      · exact ⟨_, hname, rfl, rfl, rfl⟩
      · obtain ⟨p, hp, rfl⟩ := List.mem_map.mp ha
        have hparameter : ⟨grammar, .parameter rule.name.text, p⟩ ∈ rule.occurrences grammar :=
          List.mem_append_left _ (List.mem_map_of_mem hp)
        exact ⟨_, hsub hparameter, rfl, rfl, rfl⟩
    · refine Occurrence.anchoredIn_of_anchors_eq_nil ?_
      -- what is marked as a context, an action or a virtual terminal is told by itself
      simp only [List.mem_cons, List.not_mem_nil, or_false] at hother
      rcases hother with huse | huse | huse <;> rw [huse] <;> rfl

theorem Grammar.anchoredIn_occurrences {g : Grammar} {o : Occurrence} (ho : o ∈ g.occurrences) :
    o.AnchoredIn g.occurrences := by
  have hmem := ho
  simp only [Grammar.occurrences, List.mem_cons, List.mem_append, List.mem_map,
    List.mem_flatMap] at hmem
  rcases hmem with rfl |
    ((((⟨p, hp, rfl⟩ | ⟨entry, hentry, hoentry⟩) | ⟨rule, hrule, rfl⟩) | ⟨rule, hrule, horule⟩) |
      ⟨setting, -, hsetting⟩)
  · exact Occurrence.anchoredIn_of_anchors_eq_nil rfl
  · exact Occurrence.anchoredIn_of_anchors_eq_nil rfl
  · refine (TerminalEntry.anchoredIn_occurrences entry hoentry).mono fun o' ho' => ?_
    simp only [Grammar.occurrences, List.mem_cons, List.mem_append, List.mem_flatMap]
    exact .inr (.inl (.inl (.inl (.inr ⟨entry, hentry, ho'⟩))))
  · exact Occurrence.anchoredIn_of_anchors_eq_nil rfl
  · refine Rule.anchoredIn ?_ (fun o' ho' => ?_) horule
    · simp only [Grammar.occurrences, List.mem_cons, List.mem_append, List.mem_map]
      exact .inr (.inl (.inl (.inr ⟨rule, hrule, rfl⟩)))
    · simp only [Grammar.occurrences, List.mem_cons, List.mem_append, List.mem_flatMap]
      exact .inr (.inl (.inr ⟨rule, hrule, ho'⟩))
  · refine Occurrence.anchoredIn_of_anchors_eq_nil ?_
    unfold Setting.occurrences at hsetting
    split at hsetting
    · rw [List.mem_singleton.mp hsetting]
      rfl
    · split at hsetting
      · rw [List.mem_singleton.mp hsetting]
        rfl
      · exact absurd hsetting List.not_mem_nil

/-- **Whatever a role refers to is declared**, by an occurrence of the same grammar. -/
theorem Tree.exists_anchor {tree : Tree} {o : Occurrence} (ho : o ∈ tree.occurrences) :
    o.AnchoredIn tree.occurrences := by
  obtain ⟨g, hg, ho⟩ := List.mem_flatMap.mp ho
  exact (Grammar.anchoredIn_occurrences ho).mono
    fun o' ho' => List.mem_flatMap.mpr ⟨g, hg, ho'⟩

/-- The grammar of an occurrence is declared. -/
theorem Tree.exists_grammar {tree : Tree} {o : Occurrence} (ho : o ∈ tree.occurrences) :
    ∃ o' ∈ tree.occurrences, o'.role = .grammar ∧ o'.token.text = o.grammar := by
  obtain ⟨g, hg, hmember⟩ := Tree.exists_memberOf ho
  refine ⟨⟨g.name.text, .grammar, g.name⟩, List.mem_flatMap.mpr ⟨g, hg, ?_⟩, rfl, ?_⟩
  · exact List.mem_cons_self
  · exact hmember.grammar_eq.symm

/-! ### One grammar after the other -/

/-- Every occurrence belongs to the grammar that was declared last, at first to `g`. -/
def Continues (g : String) : List Occurrence → Prop
  | [] => True
  | o :: os => (o.role ≠ .grammar → o.grammar = g) ∧ Continues o.grammar os

theorem continues_of_forall {g : String} {os : List Occurrence} (h : ∀ o ∈ os, o.grammar = g) :
    Continues g os := by
  induction os with
  | nil => trivial
  | cons o os ih =>
    have ho : o.grammar = g := h o List.mem_cons_self
    refine ⟨fun _ => ho, ?_⟩
    rw [ho]
    exact ih fun o' ho' => h o' (List.mem_cons_of_mem _ ho')

theorem Continues.append {g : String} {os os' : List Occurrence} (h : Continues g os)
    (h' : ∀ g', Continues g' os') : Continues g (os ++ os') := by
  induction os generalizing g with
  | nil => exact h' g
  | cons o os ih => exact ⟨h.1, ih h.2⟩

/-- **Grammars come one after the other.** -/
theorem Tree.continues_occurrences (tree : Tree) (g : String) : Continues g tree.occurrences := by
  unfold Tree.occurrences
  induction tree.grammars generalizing g with
  | nil => trivial
  | cons grammar grammars ih =>
    rw [List.flatMap_cons]
    refine Continues.append ?_ ih
    -- the first occurrence is the name of the grammar, and all others belong to it
    have hall : ∀ o ∈ grammar.occurrences, o.grammar = grammar.name.text :=
      fun o ho => (Grammar.memberOf_of_mem_occurrences ho).grammar_eq
    refine ⟨fun hrole => absurd rfl hrole, continues_of_forall fun o ho => ?_⟩
    exact hall o (List.mem_cons_of_mem _ ho)

end GrammarIndex
