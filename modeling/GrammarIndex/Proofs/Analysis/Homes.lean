import GrammarIndex.Proofs.Analysis.Evolution
import GrammarIndex.Proofs.Grammar.Renaming

/-!
# Where names are at home

An occurrence declares its name in some scope, or finds it there: in no scope, in its
grammar, in a parent, or in the rule around it.  Scope and name together make up the
qualified name that is recorded for the occurrence.  Where no mistake is noted, every
occurrence has such a home, and one record.

## Main definitions

* `Scope.AtHome`, `View.AtHome` — a use finds its name in a scope; an occurrence has its
  name in a scope.
* `Role.declares?` — the kind that an occurrence states where it declares its name.
* `View.Clean v os w` — the view goes over the occurrences without a mistake.

## Main results

* `View.AtHome.record_cases` — what an occurrence records.
* `View.exists_range_of_walk` — whatever is recorded stands at the range of an occurrence.
* `View.mentions_subset_of_walk` — and it stays recorded.
* `View.clean_of_walk` — **a walk that ends without mistakes has been clean all along.**
* `View.Clean.mentions_inj` — **where no two tokens have the same range, one record stands at
  a range.**
-/

namespace GrammarIndex

namespace Scope

/-! ### The home of a use -/

/-- The first parent that knows the name with an accepted kind. -/
def importer? (scope : Scope) (kindOf : String → Option Kind) (name : String)
    (accepts : Kind → Bool) : Option String :=
  scope.imports.find? fun p => (kindOf (qualify p name)).any accepts

section

variable (scope : Scope) (kindOf : String → Option Kind) (grammar name : String)

/-- A use finds the name in this scope. -/
inductive AtHome : Use → List String → Prop
  /-- A parent is in no scope. -/
  | parent : AtHome .parent []
  /-- An action is in the grammar. -/
  | action : AtHome .action [grammar]
  /-- A virtual symbol is in the grammar. -/
  | virtual : AtHome .virtual [grammar]
  /-- A context is one of the grammar. -/
  | context (h : name ∈ scope.contexts) : AtHome .context [grammar]
  /-- The start symbol is a variable of the grammar. -/
  | axiomValue (h : name ∈ scope.nonterminals) : AtHome .axiomValue [grammar]
  /-- The separator is a terminal of the grammar. -/
  | separatorValue (h : name ∈ scope.terminals) : AtHome .separatorValue [grammar]
  /-- A terminal of the grammar, other than the one that is being defined. -/
  | lexicalTerminal {owner : String} (howner : name ≠ owner) (h : name ∈ scope.terminals) :
    AtHome (.lexical owner) [grammar]
  /-- A terminal of a parent. -/
  | lexicalImport {owner p : String} (howner : name ≠ owner) (hterminal : name ∉ scope.terminals)
    (h : scope.importer? kindOf name (· = .terminal) = some p) : AtHome (.lexical owner) [p]
  /-- A parameter of the rule. -/
  | parameter {rule : String} {parameters : List String} (h : name ∈ parameters) :
    AtHome (.symbol rule parameters) [grammar, rule]
  /-- A terminal of the grammar. -/
  | terminal {rule : String} {parameters : List String} (hparameter : name ∉ parameters)
    (h : name ∈ scope.terminals) : AtHome (.symbol rule parameters) [grammar]
  /-- A variable of the grammar. -/
  | nonterminal {rule : String} {parameters : List String} (hparameter : name ∉ parameters)
    (hterminal : name ∉ scope.terminals) (h : name ∈ scope.nonterminals) :
    AtHome (.symbol rule parameters) [grammar]
  /-- A symbol of a parent. -/
  | import {rule : String} {parameters : List String} {p : String}
    (hparameter : name ∉ parameters) (hterminal : name ∉ scope.terminals)
    (hnonterminal : name ∉ scope.nonterminals)
    (h : scope.importer? kindOf name (fun _ => true) = some p) :
    AtHome (.symbol rule parameters) [p]

end

theorem importedName?_eq (scope : Scope) (kindOf : String → Option Kind) (name : String)
    (accepts : Kind → Bool) :
    scope.importedName? kindOf name accepts =
      (scope.importer? kindOf name accepts).map (qualify · name) := by
  rw [importedName?, List.find?_map]
  rfl

/-- **A use means its name at home.** -/
theorem AtHome.meaning_eq {scope : Scope} {kindOf : String → Option Kind}
    {grammar name : String} {u : Use} {home : List String}
    (h : scope.AtHome kindOf grammar name u home) :
    scope.meaning kindOf grammar u name = .symbol (joinPath (home ++ [name])) := by
  cases h with
  | parent => rfl
  | action => rfl
  | virtual => rfl
  | context h => exact if_pos h
  | axiomValue h => exact if_pos h
  | separatorValue h => exact if_pos h
  | lexicalTerminal howner h => simp only [meaning, if_neg howner, if_pos h]; rfl
  | lexicalImport howner hterminal h =>
    simp only [meaning, if_neg howner, if_neg hterminal, importedName?_eq, h]
    rfl
  | parameter h =>
    simp only [meaning, if_pos h]
    exact congrArg Meaning.symbol (joinPath_three _ _ _).symm
  | terminal hparameter h => simp only [meaning, if_neg hparameter, if_pos h]; rfl
  | nonterminal hparameter hterminal h =>
    simp only [meaning, if_neg hparameter, if_neg hterminal, if_pos h]
    rfl
  | «import» hparameter hterminal hnonterminal h =>
    simp only [meaning, if_neg hparameter, if_neg hterminal, if_neg hnonterminal,
      importedName?_eq, h]
    rfl

/-- **A use without a home is a mistake.** -/
theorem exists_atHome_or_mistake (scope : Scope) (kindOf : String → Option Kind)
    (grammar name : String) (u : Use) :
    (∃ home, scope.AtHome kindOf grammar name u home) ∨
      ∃ m, scope.meaning kindOf grammar u name = .mistake m := by
  cases u with
  | parent => exact .inl ⟨_, .parent⟩
  | action => exact .inl ⟨_, .action⟩
  | virtual => exact .inl ⟨_, .virtual⟩
  | context =>
    by_cases h : name ∈ scope.contexts
    · exact .inl ⟨_, .context h⟩
    · exact .inr ⟨_, if_neg h⟩
  | axiomValue =>
    by_cases h : name ∈ scope.nonterminals
    · exact .inl ⟨_, .axiomValue h⟩
    · exact .inr ⟨_, if_neg h⟩
  | separatorValue =>
    by_cases h : name ∈ scope.terminals
    · exact .inl ⟨_, .separatorValue h⟩
    · exact .inr ⟨_, if_neg h⟩
  | lexical owner =>
    -- never the terminal itself, then one of its own grammar, then one of a parent
    by_cases howner : name = owner
    · exact .inr ⟨_, if_pos howner⟩
    · by_cases hterminal : name ∈ scope.terminals
      · exact .inl ⟨_, .lexicalTerminal howner hterminal⟩
      · cases h : scope.importer? kindOf name (· = .terminal) with
        | some p => exact .inl ⟨_, .lexicalImport howner hterminal h⟩
        | none =>
          refine .inr ⟨.missingTerminal, ?_⟩
          simp only [meaning, if_neg howner, if_neg hterminal, importedName?_eq, h]
          rfl
  | symbol rule parameters =>
    -- in the order in which scopes are searched, from the rule outwards
    by_cases hparameter : name ∈ parameters
    · exact .inl ⟨_, .parameter hparameter⟩
    · by_cases hterminal : name ∈ scope.terminals
      · exact .inl ⟨_, .terminal hparameter hterminal⟩
      · by_cases hnonterminal : name ∈ scope.nonterminals
        · exact .inl ⟨_, .nonterminal hparameter hterminal hnonterminal⟩
        · cases h : scope.importer? kindOf name (fun _ => true) with
          | some p => exact .inl ⟨_, .import hparameter hterminal hnonterminal h⟩
          | none =>
            refine .inr ⟨.missingSymbol, ?_⟩
            simp only [meaning, if_neg hparameter, if_neg hterminal, if_neg hnonterminal,
              importedName?_eq, h]
            rfl

end Scope

/-! ### The home of an occurrence -/

/-- The kind that an occurrence of this role states for its name, if it declares it. -/
def Role.declares? : Role → Option Kind
  | .grammar => some .grammar
  | .context => some .context
  | .terminal => some .terminal
  | .nonterminal => some .nonterminal
  | .parameter _ => some .parameter
  | .use _ => none

theorem declares?_rename (ρ : Renaming) (grammar : String) (role : Role) :
    (role.rename ρ grammar).declares? = role.declares? := by
  cases role <;> rfl

namespace View

/-- An occurrence declares its name in this scope, or finds it there. -/
def AtHome (v : View) (grammar : String) (role : Role) (name : String) (home : List String) :
    Prop :=
  match role with
  | .use u => v.scope.AtHome (v.announce (u.suggestion? grammar name)).kindOf grammar name u home
  | role => role.declaredIn? grammar = some home

/-- All that was found so far, the definitions first. -/
def mentions (v : View) : List NamedMention := v.definitions ++ v.references

@[simp] theorem log_announce (v : View) (suggestion : Option (String × Kind)) :
    (v.announce suggestion).log = v.log := by
  cases suggestion <;> rfl

@[simp] theorem mentions_announce (v : View) (suggestion : Option (String × Kind)) :
    (v.announce suggestion).mentions = v.mentions := by
  cases suggestion <;> rfl

variable {v w : View} {grammar : String} {role : Role} {home : List String}

/-- A declaration defines its name in the scope in which it declares it. -/
theorem exists_act_eq (h : role.declaredIn? grammar = some home) (name : String) :
    ∃ kind, role.declares? = some kind ∧
      role.act grammar name = .define (joinPath (home ++ [name])) kind := by
  cases role with
  | use u => exact absurd h (by simp [Role.declaredIn?])
  | parameter rule =>
    rw [← Option.some.inj h]
    exact ⟨.parameter, rfl, congrArg (Act.define · .parameter) (joinPath_three _ _ _).symm⟩
  | _ =>
    rw [← Option.some.inj h]
    exact ⟨_, rfl, rfl⟩

theorem atHome_of_declaredIn? (v : View) (h : role.declaredIn? grammar = some home)
    (name : String) : v.AtHome grammar role name home := by
  cases role with
  | use u => exact absurd h (by simp [Role.declaredIn?])
  | _ => exact h

/-- The view after a declaration. -/
theorem record_of_declaredIn? (v : View) (h : role.declaredIn? grammar = some home)
    (name : String) (range : Range) :
    ∃ kind, role.declares? = some kind ∧
      v.record grammar role name range =
        { v.define (joinPath (home ++ [name])) kind range with
          scope := v.scope.enter role name } := by
  obtain ⟨kind, hkind, hact⟩ := exists_act_eq h name
  refine ⟨kind, hkind, ?_⟩
  unfold record
  rw [hact]
  rfl

variable {name : String} {range : Range}

/-- The view after a use that finds its name. -/
theorem record_of_use {u : Use} (h : v.AtHome grammar (.use u) name home) (range : Range) :
    v.record grammar (.use u) name range =
      { v.announce (u.suggestion? grammar name) with
        references := (v.announce (u.suggestion? grammar name)).references ++
          [⟨joinPath (home ++ [name]), range⟩]
        scope := v.scope.enter (.use u) name } := by
  have hmeaning := Scope.AtHome.meaning_eq h
  rw [← scope_announce v (u.suggestion? grammar name)] at hmeaning ⊢
  simp only [record, Role.act, recordUse, hmeaning, recordMeaning]

namespace AtHome

/-- **Where an occurrence has its name, it defines or references it**, and does no more than
that but for what a use declares by itself. -/
theorem record_cases (h : v.AtHome grammar role name home) (range : Range) :
    (∃ kind, v.record grammar role name range =
        { v.define (joinPath (home ++ [name])) kind range with
          scope := v.scope.enter role name }) ∨
      ∃ suggestion, v.record grammar role name range =
        { v.announce suggestion with
          references := (v.announce suggestion).references ++ [⟨joinPath (home ++ [name]), range⟩]
          scope := v.scope.enter role name } := by
  cases role with
  | use u => exact .inr ⟨_, record_of_use h range⟩
  | _ =>
    obtain ⟨kind, -, hrecord⟩ := v.record_of_declaredIn? h name range
    exact .inl ⟨kind, hrecord⟩

theorem log_record (h : v.AtHome grammar role name home) :
    (v.record grammar role name range).log = v.log := by
  rcases h.record_cases range with ⟨kind, hrecord⟩ | ⟨suggestion, hrecord⟩ <;> rw [hrecord]
  · rfl
  · exact v.log_announce suggestion

theorem mem_mentions_record (h : v.AtHome grammar role name home) {m : NamedMention} :
    m ∈ (v.record grammar role name range).mentions ↔
      m ∈ v.mentions ∨ m = ⟨joinPath (home ++ [name]), range⟩ := by
  rcases h.record_cases range with ⟨kind, hrecord⟩ | ⟨suggestion, hrecord⟩ <;> rw [hrecord]
  · simp [mentions, define, change, or_assoc, or_comm]
  · rw [← v.mentions_announce suggestion]
    simp [mentions, or_assoc]

end AtHome

/-- An occurrence without a home is a use, and does nothing but note a mistake. -/
theorem exists_atHome_or_noted (v : View) (grammar : String) (role : Role) (name : String)
    (range : Range) :
    (∃ home, v.AtHome grammar role name home) ∨ (∃ u, role = .use u) ∧
      ∃ m, v.record grammar role name range = { v with log := v.log.note m range name } := by
  cases role with
  | use u =>
    rcases v.scope.exists_atHome_or_mistake (v.announce (u.suggestion? grammar name)).kindOf
      grammar name u with hhome | ⟨m, hmeaning⟩
    · exact .inl hhome
    · refine .inr ⟨⟨u, rfl⟩, m, ?_⟩
      rw [← scope_announce v (u.suggestion? grammar name)] at hmeaning
      simp only [record, Role.act, recordUse, hmeaning, recordMeaning]
      -- what a use declares by itself is at home
      cases u with
      | parent => exact absurd hmeaning (by simp [Scope.meaning])
      | action => exact absurd hmeaning (by simp [Scope.meaning])
      | virtual => exact absurd hmeaning (by simp [Scope.meaning])
      | _ => rfl
  | _ => exact .inl ⟨_, rfl⟩

theorem range_of_mem_mentions_recordMeaning {meaning : Meaning} {m : NamedMention}
    (hm : m ∈ (v.recordMeaning meaning name range).mentions) :
    m ∈ v.mentions ∨ m.range = range := by
  cases meaning with
  | symbol q =>
    simp only [recordMeaning, mentions] at hm
    rw [← List.append_assoc, List.mem_append, List.mem_singleton] at hm
    exact hm.imp_right fun hlast => congrArg NamedMention.range hlast
  | mistake mistake => exact .inl hm

/-- Whatever an occurrence records, it records at its own range. -/
theorem range_of_mem_mentions_record {m : NamedMention}
    (hm : m ∈ (v.record grammar role name range).mentions) :
    m ∈ v.mentions ∨ m.range = range := by
  unfold record at hm
  cases hact : role.act grammar name with
  | define q kind =>
    simp only [hact, mentions, define, change, List.append_assoc, List.mem_append,
      List.mem_singleton] at hm
    rcases hm with hm | rfl | hm
    · exact .inl (List.mem_append_left _ hm)
    · exact .inr rfl
    · exact .inl (List.mem_append_right _ hm)
  | use u =>
    simp only [hact] at hm
    rw [← v.mentions_announce (u.suggestion? grammar name)]
    exact range_of_mem_mentions_recordMeaning hm

/-- **Whatever a walk records stands at the range of an occurrence.** -/
theorem exists_range_of_walk {os : List Occurrence} (h : v.walk os = .ok w) {m : NamedMention}
    (hm : m ∈ w.mentions) :
    m ∈ v.mentions ∨ ∃ o ∈ os, v.lines.range? o.token.span = some m.range := by
  induction os generalizing v with
  | nil =>
    rw [Except.ok.inj h]
    exact .inl hm
  | cons o os ih =>
    obtain ⟨name, range, -, hrange, hrest⟩ := exists_of_walk_cons h
    rcases ih hrest with hrecorded | ⟨o', ho', hrange'⟩
    · rcases range_of_mem_mentions_record hrecorded with hbefore | rfl
      · exact .inl hbefore
      · exact .inr ⟨o, List.mem_cons_self, hrange⟩
    · rw [lines_record] at hrange'
      exact .inr ⟨o', List.mem_cons_of_mem _ ho', hrange'⟩

/-- Whatever is recorded stays so. -/
theorem mentions_subset_of_walk {os : List Occurrence} (h : v.walk os = .ok w) :
    v.mentions ⊆ w.mentions := by
  induction os generalizing v with
  | nil => exact Except.ok.inj h ▸ List.Subset.refl _
  | cons o os ih =>
    obtain ⟨name, range, -, -, hrest⟩ := exists_of_walk_cons h
    refine fun m hm => ih hrest ?_
    rcases v.exists_atHome_or_noted o.grammar o.role name range with ⟨home, hhome⟩ | ⟨-, m', hnoted⟩
    · exact hhome.mem_mentions_record.mpr (.inl hm)
    · rw [hnoted]
      exact hm

/-! ### Walks without mistakes -/

/-- The view goes over the occurrences and makes of each what it should: the name and the
range are found, and the name has a home. -/
inductive Clean : View → List Occurrence → View → Prop
  /-- There is nothing left. -/
  | nil (v : View) : Clean v [] v
  /-- One more occurrence. -/
  | cons {v w : View} {o : Occurrence} {os : List Occurrence} {name : String} {range : Range}
    {home : List String} (hname : o.name? = some name)
    (hrange : v.lines.range? o.token.span = some range)
    (hhome : v.AtHome o.grammar o.role name home)
    (hrest : Clean (v.record o.grammar o.role name range) os w) : Clean v (o :: os) w

theorem Clean.walk {os : List Occurrence} (h : v.Clean os w) : v.walk os = .ok w := by
  induction h with
  | nil v => rfl
  | cons hname hrange hhome _ ih =>
    rw [walk_cons, visit, hname]
    simp only [hrange]
    exact ih

/-- Mistakes are not taken back. -/
theorem entries_isPrefix_of_walk {os : List Occurrence} (h : v.walk os = .ok w) :
    v.log.entries <+: w.log.entries := by
  induction os generalizing v with
  | nil => exact Except.ok.inj h ▸ List.prefix_rfl
  | cons o os ih =>
    obtain ⟨name, range, -, -, hrest⟩ := exists_of_walk_cons h
    refine List.IsPrefix.trans ?_ (ih hrest)
    rcases v.exists_atHome_or_noted o.grammar o.role name range with ⟨home, hhome⟩ | ⟨-, m, hnoted⟩
    · exact hhome.log_record.symm ▸ List.prefix_rfl
    · exact hnoted ▸ List.prefix_append _ _

/-- **A walk that ends without mistakes has been clean all along.** -/
theorem clean_of_walk {os : List Occurrence} (h : v.walk os = .ok w)
    (hlog : w.log.entries = []) : v.Clean os w := by
  induction os generalizing v with
  | nil =>
    rw [Except.ok.inj h]
    exact .nil w
  | cons o os ih =>
    obtain ⟨name, range, hname, hrange, hrest⟩ := exists_of_walk_cons h
    rcases v.exists_atHome_or_noted o.grammar o.role name range with ⟨home, hhome⟩ | ⟨-, m, hnoted⟩
    · exact .cons hname hrange hhome (ih hrest)
    · -- a mistake that was noted here would still be noted in the end
      have hprefix := entries_isPrefix_of_walk hrest
      rw [hlog, List.prefix_nil, hnoted] at hprefix
      exact absurd hprefix (by simp [DiagnosticLog.note, DiagnosticLog.add])

namespace Clean

variable {os : List Occurrence}

theorem mentions_subset (h : v.Clean os w) : v.mentions ⊆ w.mentions :=
  mentions_subset_of_walk h.walk

/-- Where no two tokens have the same range, one record stands at a range. -/
theorem mentions_inj (h : v.Clean os w)
    (hranges : os.Pairwise fun o o' => ∀ range, v.lines.range? o.token.span = some range →
      v.lines.range? o'.token.span ≠ some range)
    (hinj : ∀ m ∈ v.mentions, ∀ m' ∈ v.mentions, m.range = m'.range → m = m')
    (hahead : ∀ m ∈ v.mentions, ∀ o ∈ os, v.lines.range? o.token.span ≠ some m.range) :
    ∀ m ∈ w.mentions, ∀ m' ∈ w.mentions, m.range = m'.range → m = m' := by
  -- by induction on the walk: what was recorded stands apart from what is still to come
  induction h with
  | nil v => exact hinj
  | @cons v w o os name range home hname hrange hhome hrest ih =>
    obtain ⟨hfirst, hothers⟩ := List.pairwise_cons.mp hranges
    -- whatever was recorded before stands at another range
    have hbefore : ∀ m ∈ v.mentions, m.range ≠ range := by
      rintro m hm rfl
      exact hahead m hm o List.mem_cons_self hrange
    refine ih ?_ ?_ ?_
    · simpa only [lines_record] using hothers
    · intro m hm m' hm' heq
      -- both were recorded before, or one of them, or none
      rcases hhome.mem_mentions_record.mp hm with hm | rfl <;>
        rcases hhome.mem_mentions_record.mp hm' with hm' | rfl
      · exact hinj m hm m' hm' heq
      · exact absurd heq (hbefore m hm)
      · exact absurd heq.symm (hbefore m' hm')
      · rfl
    · intro m hm o' ho'
      rw [lines_record]
      rcases hhome.mem_mentions_record.mp hm with hm | rfl
      · exact hahead m hm o' (List.mem_cons_of_mem _ ho')
      · exact hfirst o' ho' range hrange

end Clean

end View

end GrammarIndex
