import GrammarIndex.Proofs.Analysis.Lexicon
import GrammarIndex.Proofs.Analysis.Rearrangement
import GrammarIndex.Proofs.Symbol.Name

/-!
# The order of rules

A grammar declares all its variables before any body is looked at, so that a rule may mention
another wherever it stands.  Bodies give kinds to names on the way, but only to names of their
own grammar, and these are looked up in later grammars only.  So the order of the rules decides
nothing but the order of what is found.

## Main definitions

* `View.LooksElsewhere` — nothing is looked up in this grammar.

## Main results

* `Grammar.exchangeable_variables`, `Grammar.exchangeable_bodies` — in each phase, occurrences
  can change places.
* `Grammar.exists_walk_of_perm` — a walk over a grammar with its rules in another order.
* `exists_analyze_of_perm` — **the order of rules is irrelevant.**
-/

namespace GrammarIndex

/-- No parent of the current grammar has a name that this grammar could have as well. -/
def View.LooksElsewhere (grammar : String) (v : View) : Prop :=
  ∀ parent ∈ v.scope.imports, ∀ a b, qualify grammar a ≠ qualify parent b

namespace Grammar

variable {g : Grammar}

/-! ### The two phases -/

/-- The variables may be declared in any order. -/
theorem exchangeable_variables (g : Grammar) :
    View.Exchangeable (fun _ => True)
      (g.rules.map fun rule => ⟨g.name.text, .nonterminal, rule.name⟩) where
  record _ _ _ _ _ := trivial
  swap := by
    intro v _ o ho o' ho' name range name' range'
    obtain ⟨rule, -, rfl⟩ := List.mem_map.mp ho
    obtain ⟨rule', -, rfl⟩ := List.mem_map.mp ho'
    refine View.rearranged_swap (by simp) (by simp) ⟨rfl, fun _ => .rfl, fun _ => .rfl, ?_⟩ rfl rfl
    intro n
    simp only [Scope.enter, mem_addNew, or_right_comm]

/-- What is said in a body changes no name that is looked up. -/
theorem meaning?_record_of_mem_bodies {v : View} (hv : v.LooksElsewhere g.name.text)
    {o : Occurrence} (ho : o ∈ g.bodies) (name : String) (range : Range) (role : Role)
    (grammar name' : String) :
    role.meaning? (v.record o.grammar o.role name range).scope
        (v.record o.grammar o.role name range).kindOf grammar name' =
      role.meaning? v.scope v.kindOf grammar name' := by
  have hinner := inner_of_mem_bodies ho
  have hsame : v.scope.SameNames (v.record o.grammar o.role name range).scope := by
    rw [View.scope_record, enter_of_mem_bodies ho]
    exact .refl _
  cases role with
  | use u =>
    refine congrArg some (hsame.meaning_eq (fun accepts _ parent hparent n => ?_) grammar u name')
    -- a name in a parent is none of this grammar
    have hkept : o.role.effect o.grammar name (qualify parent n) (v.standing (qualify parent n)) =
        v.standing (qualify parent n) := by
      apply Role.effect_eq_self
      · intro hrole
        exact absurd hrole hinner.role_ne_grammar
      · intro hrole
        exact absurd hrole hinner.role_ne_parent
      · intro a
        rw [hinner.grammar_eq]
        exact hv parent hparent a n
    rw [View.kindOf, View.standing_record, hkept]
    rfl
  | _ => rfl

/-- The bodies may come in any order. -/
theorem exchangeable_bodies (g : Grammar) :
    View.Exchangeable (View.LooksElsewhere g.name.text) g.bodies where
  record := by
    intro v hv o ho name range
    unfold View.LooksElsewhere
    rw [View.scope_record, enter_of_mem_bodies ho]
    exact hv
  swap := by
    intro v hv o ho o' ho' name range name' range'
    have hrole : ∀ {o : Occurrence}, o ∈ g.bodies → o.role ≠ .terminal := by
      intro o ho hterminal
      obtain ⟨rule, hparameter⟩ := exists_parameter_of_mem_bodies ho (by rw [hterminal]; rfl)
      exact absurd (hterminal.symm.trans hparameter) (by simp)
    refine View.rearranged_swap (hrole ho) (hrole ho') ?_
      (meaning?_record_of_mem_bodies hv ho' _ _ _ _ _)
      (meaning?_record_of_mem_bodies hv ho _ _ _ _ _)
    simp only [enter_of_mem_bodies ho, enter_of_mem_bodies ho']
    exact .refl _

/-! ### A grammar -/

/-- The occurrences of a grammar, phase by phase. -/
theorem occurrences_eq_phases (g : Grammar) :
    g.occurrences = (g.prologue ++ g.lexicon) ++
      (g.rules.map (fun rule => ⟨g.name.text, .nonterminal, rule.name⟩) ++
        (g.rules.flatMap (·.occurrences g.name.text) ++
          g.options.flatMap (·.occurrences g.name.text))) := by
  rw [occurrences_eq_prologue, bodies, List.append_assoc]

/-- **A walk over a grammar with its rules in another order** comes to the same. -/
theorem exists_walk_of_perm (hname : Dotless g.name.text)
    (hparents : ∀ parent ∈ g.parents, Dotless parent.text ∧ parent.text ≠ g.name.text)
    {rules : List Rule} (hperm : g.rules.Perm rules) {v w : View}
    (hw : v.walk g.occurrences = .ok w) :
    ∃ w', v.walk { g with rules := rules }.occurrences = .ok w' ∧ w.Rearranged w' := by
  -- name and parents, then the variables, then the bodies, then the options
  rw [occurrences_eq_phases] at hw
  obtain ⟨v₁, hv₁, hrest⟩ := View.exists_of_walk_append hw
  obtain ⟨v₂, hv₂, hrest⟩ := View.exists_of_walk_append hrest
  obtain ⟨v₃, hv₃, hoptions⟩ := View.exists_of_walk_append hrest
  -- the variables, in the other order
  obtain ⟨u₂, hu₂, hvariables⟩ :=
    g.exchangeable_variables.exists_walk (hperm.map _) trivial hv₂
  -- the bodies, in the other order and then after the variables in the other order
  have helsewhere : v₂.LooksElsewhere g.name.text := by
    have hdeclares : v₂.scope.Declares g := by
      rw [View.scope_walk (View.walk_append_of_walk hv₁ hv₂)]
      have hheadings : (g.prologue ++ g.lexicon) ++
          g.rules.map (fun rule => (⟨g.name.text, .nonterminal, rule.name⟩ : Occurrence)) =
            ⟨g.name.text, .grammar, g.name⟩ :: g.headings := by
        simp [prologue, lexicon, headings]
      rw [hheadings]
      exact g.declares_headings _
    intro parent hparent a b heq
    rw [hdeclares.imports, List.mem_eraseDups] at hparent
    obtain ⟨t, ht, rfl⟩ := List.mem_map.mp hparent
    obtain ⟨hdotless, hne⟩ := hparents t ht
    exact hne ((qualify_inj hname hdotless).mp heq).1.symm
  have hrules : g.rules.flatMap (·.occurrences g.name.text) ⊆ g.bodies :=
    List.subset_append_left _ _
  obtain ⟨u₃, hu₃, hbodies⟩ := (g.exchangeable_bodies.mono hrules).exists_walk
    (hperm.flatMap_right _) helsewhere hv₃
  -- the options come last, and they find a view that is only rearranged
  obtain ⟨w₃, hw₃, hbodies'⟩ := hvariables.exists_walk hu₃
  obtain ⟨w', hw', hend⟩ := (hbodies.trans hbodies').exists_walk hoptions
  refine ⟨w', ?_, hend⟩
  rw [occurrences_eq_phases]
  exact View.walk_append_of_walk hv₁
    (View.walk_append_of_walk hu₂ (View.walk_append_of_walk hw₃ hw'))

end Grammar

/-! ### Analyses -/

/-- What is found with the rules of one grammar in another order is the same in another order. -/
theorem exists_findingOf_of_perm {source text : String} {kindOf : String → Option Kind}
    {d : DocumentId} {before later : List Grammar} {g : Grammar} (hname : Dotless g.name.text)
    (hparents : ∀ parent ∈ g.parents, Dotless parent.text ∧ parent.text ≠ g.name.text)
    {rules : List Rule} (hperm : g.rules.Perm rules) {f : Finding}
    (hf : findingOf source kindOf d text ⟨before ++ g :: later⟩ = .ok f) :
    ∃ f', findingOf source kindOf d text ⟨before ++ { g with rules := rules } :: later⟩ = .ok f' ∧
      f.Rearranged f' := by
  have hoccurrences : ∀ g' : Grammar, (Tree.mk (before ++ g' :: later)).occurrences =
      before.flatMap (·.occurrences) ++ (g'.occurrences ++ later.flatMap (·.occurrences)) := by
    intro g'
    rw [Tree.occurrences, List.flatMap_append, List.flatMap_cons]
  obtain ⟨w, hw, rfl⟩ := exists_walk_of_findingOf hf
  rw [hoccurrences] at hw
  -- only the grammar in the middle is looked at in another order
  obtain ⟨v₁, hv₁, hrest⟩ := View.exists_of_walk_append hw
  obtain ⟨v₂, hv₂, hlater⟩ := View.exists_of_walk_append hrest
  obtain ⟨u₂, hu₂, hgrammar⟩ := Grammar.exists_walk_of_perm hname hparents hperm hv₂
  obtain ⟨w', hw', hend⟩ := hgrammar.exists_walk hlater
  refine ⟨w'.finding, ?_, hend.finding⟩
  rw [findingOf, hoccurrences,
    View.walk_append_of_walk hv₁ (View.walk_append_of_walk hu₂ hw')]
  rfl

/-- **The order of rules is irrelevant.**  After any history, let an analysis succeed.  Take a
grammar of its tree whose name and parents have no dots and which is no parent of itself, and put
its rules in another order.  Then the analysis succeeds as well; it has the same diagnostics, and
the same definitions and references, told by qualified name and range, in some other order. -/
theorem exists_analyze_of_perm {history : List Registry.Event} {source text : String}
    {d : DocumentId} {before later : List Grammar} {g : Grammar} {a : Analysis} {r : Registry}
    (h : analyze source (Registry.after history) d text ⟨before ++ g :: later⟩ = (.ok a, r))
    (hname : Dotless g.name.text)
    (hparents : ∀ parent ∈ g.parents, Dotless parent.text ∧ parent.text ≠ g.name.text)
    {rules : List Rule} (hperm : g.rules.Perm rules) :
    ∃ a' r' f f', analyze source (Registry.after history) d text
        ⟨before ++ { g with rules := rules } :: later⟩ = (.ok a', r') ∧
      r.ReadsAs a f ∧ r'.ReadsAs a' f' ∧ a.diagnostics.Perm a'.diagnostics ∧
      f.definitions.Perm f'.definitions ∧ f.references.Perm f'.references := by
  have hwf := Registry.wellFormed_after history
  -- the order of rules is read off the findings, and analyses agree with these
  have hgives := hwf.gives_analyze source d text ⟨before ++ g :: later⟩
  rw [h] at hgives
  obtain ⟨f, hf, hreads⟩ := hgives.exists_eq_ok
  obtain ⟨f', hf', hrearranged⟩ := exists_findingOf_of_perm hname hparents hperm hf
  have hgives' := hwf.gives_analyze source d text ⟨before ++ { g with rules := rules } :: later⟩
  rw [hf'] at hgives'
  obtain ⟨a', h', hreads'⟩ := hgives'.exists_ok_eq
  refine ⟨a', _, f, f', Prod.ext h' rfl, hreads, hreads', ?_, hrearranged.definitions,
    hrearranged.references⟩
  rw [hreads.diagnostics, hreads'.diagnostics]
  exact hrearranged.diagnostics

/-- The text of a document with a grammar and another that inherits from it. -/
def ruleOrderText : String := "G:P[S->@X T->\"X\" S] H:G[R->X]"

/-- The first rule makes `X` an action. -/
def actionRule : Rule := ⟨⟨"S", ⟨4, 5⟩⟩, [], .action ⟨"X", ⟨8, 9⟩⟩⟩

/-- The second rule makes `X` a virtual symbol, and mentions the first rule. -/
def virtualRule : Rule :=
  ⟨⟨"T", ⟨10, 11⟩⟩, [], .sequence [.virtual ⟨"\"X\"", ⟨13, 16⟩⟩, .name ⟨"S", ⟨17, 18⟩⟩]⟩

/-- The first grammar, with its two rules in this order. -/
def ruleOrderGrammar : Grammar :=
  ⟨⟨"G", ⟨0, 1⟩⟩, [⟨"P", ⟨2, 3⟩⟩], [], [], [actionRule, virtualRule]⟩

/-- The second grammar, which inherits `X`. -/
def ruleOrderHeir : Grammar :=
  ⟨⟨"H", ⟨20, 21⟩⟩, [⟨"G", ⟨22, 23⟩⟩], [], [], [⟨⟨"R", ⟨24, 25⟩⟩, [], .name ⟨"X", ⟨27, 28⟩⟩⟩]⟩

/-- Either rule may come first.  The kind of `G.X` is up to the one that does, and `H` still finds
the symbol. -/
theorem exists_analyze_of_perm_twoRules :
    let g := ruleOrderGrammar
    ∃ a r, analyze "hime" (Registry.after []) ⟨0⟩ ruleOrderText ⟨[] ++ g :: [ruleOrderHeir]⟩ =
        (.ok a, r) ∧ Dotless g.name.text ∧
      (∀ parent ∈ g.parents, Dotless parent.text ∧ parent.text ≠ g.name.text) ∧
      g.rules.Perm [virtualRule, actionRule] ∧
      ∃ a' r' f f', analyze "hime" (Registry.after []) ⟨0⟩ ruleOrderText
          ⟨[] ++ { g with rules := [virtualRule, actionRule] } :: [ruleOrderHeir]⟩ = (.ok a', r') ∧
        r.ReadsAs a f ∧ r'.ReadsAs a' f' ∧ a.diagnostics.Perm a'.diagnostics ∧
        f.definitions.Perm f'.definitions ∧ f.references.Perm f'.references := by
  intro g
  have hok : (analyze "hime" (Registry.after []) ⟨0⟩ ruleOrderText
      ⟨[] ++ g :: [ruleOrderHeir]⟩).1.toOption.any (fun _ => true) = true := by
    decide +kernel
  obtain ⟨a, r, houtcome, -⟩ := exists_eq_ok_of_any hok
  have hname : Dotless g.name.text := by
    unfold Dotless
    decide
  have hparents : ∀ parent ∈ g.parents, Dotless parent.text ∧ parent.text ≠ g.name.text := by
    unfold Dotless
    decide
  have hperm : g.rules.Perm [virtualRule, actionRule] := .swap _ _ []
  exact ⟨a, r, houtcome, hname, hparents, hperm,
    exists_analyze_of_perm houtcome hname hparents hperm⟩

end GrammarIndex
