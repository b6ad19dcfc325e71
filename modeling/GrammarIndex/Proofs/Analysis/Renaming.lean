import GrammarIndex.Proofs.Analysis.Homes
import GrammarIndex.Proofs.Grammar.Anchors

/-!
# A renamed walk

Two walks go side by side, one over the occurrences of a tree and one over the same
occurrences renamed.  Where the new name is fresh, a use that has its home in a scope has
it in the renamed scope after the renaming: no name comes in between on the way to it, and
none is lost.  So the second walk records what the first one does, under renamed names.

## Main definitions

* `Scope.names`, `Scope.rename` — the names that a grammar has declared, and the same after
  the renaming.
* `Occurrence.Written P o` — the names in an occurrence have the property `P`.
* `View.RenamedTo ρ g v v'` — the view `v'` is `v` after the renaming.

## Main results

* `Scope.AtHome.rename` — **a use stays at home.**
* `View.Clean.exists_home` — whatever is recorded has been found at home.
* `View.RenamedTo.record`, `View.RenamedTo.walk` — **the views stay side by side.**
-/

namespace GrammarIndex

/-! ### The names of a scope -/

namespace Scope

/-- The names that the current grammar has declared or taken for parents. -/
def names (scope : Scope) : List String :=
  scope.imports ++ scope.contexts ++ scope.terminals ++ scope.nonterminals

/-- The scope of the grammar `g` after the renaming. -/
def rename (ρ : Renaming) (g : String) (scope : Scope) : Scope where
  imports := scope.imports.map (ρ.label [])
  contexts := scope.contexts.map (ρ.label [g])
  terminals := scope.terminals.map (ρ.label [g])
  nonterminals := scope.nonterminals.map (ρ.label [g])

variable {scope : Scope} {role : Role} {name a : String}

theorem mem_names :
    a ∈ scope.names ↔ a ∈ scope.imports ∨ a ∈ scope.contexts ∨ a ∈ scope.terminals ∨
      a ∈ scope.nonterminals := by
  simp [names]

theorem mem_names_enter (h : a ∈ (scope.enter role name).names) : a ∈ scope.names ∨ a = name := by
  rw [mem_names] at h ⊢
  rcases h with h | h | h | h
  · exact (mem_namesOf_enter (.use .parent) h).imp .inl And.right
  · exact (mem_namesOf_enter .context h).imp (fun h => .inr (.inl h)) And.right
  · exact (mem_namesOf_enter .terminal h).imp (fun h => .inr (.inr (.inl h))) And.right
  · exact (mem_namesOf_enter .nonterminal h).imp (fun h => .inr (.inr (.inr h))) And.right

theorem mem_imports_of_importer? {kindOf : String → Option Kind} {accepts : Kind → Bool}
    {p : String} (h : scope.importer? kindOf name accepts = some p) : p ∈ scope.imports :=
  List.mem_of_find?_eq_some h

end Scope

/-! ### The names in an occurrence -/

/-- The names that are written in an occurrence and around it have the property. -/
structure Occurrence.Written (P : String → Prop) (o : Occurrence) : Prop where
  /-- The name of the grammar has it. -/
  grammar : P o.grammar
  /-- The names that tell the occurrence have it. -/
  anchors : ∀ a ∈ o.role.anchors, P a.2
  /-- A name that is written as it stands has it. -/
  text : o.role.isLiteral = false → P o.token.text
  /-- The name of a virtual symbol has it. -/
  virtual : o.role = .use .virtual → ∀ name ∈ o.name?, P name

/-- It is enough to look at every name where it is written. -/
theorem Tree.written {P : String → Prop} {tree : Tree}
    (htext : ∀ o ∈ tree.occurrences, o.role.isLiteral = false → P o.token.text)
    (hvirtual : ∀ o ∈ tree.occurrences, o.role = .use .virtual → ∀ name ∈ o.name?, P name) :
    ∀ o ∈ tree.occurrences, o.Written P := by
  intro o ho
  refine ⟨?_, fun a ha => ?_, htext o ho, hvirtual o ho⟩
  · obtain ⟨o', ho', hrole, hname⟩ := Tree.exists_grammar ho
    exact hname ▸ htext o' ho' (by rw [hrole]; rfl)
  · obtain ⟨o', ho', -, hrole, hname⟩ := Tree.exists_anchor ho a ha
    refine hname ▸ htext o' ho' ?_
    -- what is referred to is declared, and no literal declares anything
    rw [hrole]
    generalize o.role = role at ha
    cases role with
    | parameter rule => rw [List.mem_singleton.mp ha]; rfl
    | use u =>
      cases u with
      | lexical owner => rw [List.mem_singleton.mp ha]; rfl
      | symbol rule parameters =>
        rcases List.mem_cons.mp ha with rfl | ha
        · rfl
        · obtain ⟨p, -, rfl⟩ := List.mem_map.mp ha
          rfl
      | _ => exact absurd ha List.not_mem_nil
    | _ => exact absurd ha List.not_mem_nil

/-- A declaration has the property in the names of its scope. -/
theorem Occurrence.Written.forall_mem_declaredIn? {P : String → Prop} {o : Occurrence}
    (h : o.Written P) {home : List String} (hhome : o.role.declaredIn? o.grammar = some home) :
    ∀ a ∈ home, P a := by
  obtain ⟨grammar, role, token⟩ := o
  have hgrammar : P grammar := h.grammar
  have hanchors : ∀ a ∈ role.anchors, P a.2 := h.anchors
  cases role with
  | use u => exact absurd hhome (by simp [Role.declaredIn?])
  | grammar =>
    rw [← Option.some.inj (hhome : some [] = some home)]
    exact fun _ ha => absurd ha List.not_mem_nil
  | parameter rule =>
    rw [← Option.some.inj (hhome : some [grammar, rule] = some home)]
    simpa using ⟨hgrammar, hanchors _ List.mem_cons_self⟩
  | _ =>
    rw [← Option.some.inj (hhome : some [grammar] = some home)]
    simpa using hgrammar

namespace View

variable {v w : View} {os : List Occurrence} {P : String → Prop}

/-- A name has the property where it is found, and so has every scope around it. -/
theorem AtHome.written {o : Occurrence} {name : String} {home : List String}
    (hhome : v.AtHome o.grammar o.role name home) (hwritten : o.Written P)
    (hscope : ∀ a ∈ v.scope.names, P a) (hname : o.name? = some name) :
    P name ∧ ∀ a ∈ home, P a := by
  -- a name that is no literal is the text of its token
  have hwhole : o.role.isLiteral = false → P name := by
    intro hliteral
    rw [Occurrence.name?_of_not_isLiteral hliteral] at hname
    exact Option.some.inj hname ▸ hwritten.text hliteral
  by_cases hdeclared : o.role.declaredIn? o.grammar = some home
  · exact ⟨hwhole (Role.isLiteral_of_declaredIn? hdeclared),
      hwritten.forall_mem_declaredIn? hdeclared⟩
  · obtain ⟨grammar, role, token⟩ := o
    obtain ⟨hgrammar, hanchors, -, hvirtual⟩ := hwritten
    cases role with
    | use u =>
      have hinGrammar : ∀ a ∈ [grammar], P a := by simpa using hgrammar
      have himported : ∀ {accepts : Kind → Bool} {p : String},
          v.scope.importer? (v.announce (u.suggestion? grammar name)).kindOf name accepts =
            some p → ∀ a ∈ [p], P a := by
        intro accepts p hp a ha
        rw [List.mem_singleton.mp ha]
        exact hscope p (Scope.mem_names.mpr (.inl (Scope.mem_imports_of_importer? hp)))
      -- at home in its grammar, in its rule, or in a parent that the scope has
      cases hhome with
      | parent => exact ⟨hwhole rfl, by simp⟩
      | action => exact ⟨hwhole rfl, hinGrammar⟩
      | virtual => exact ⟨hvirtual rfl name hname, hinGrammar⟩
      | context h => exact ⟨hwhole rfl, hinGrammar⟩
      | axiomValue h =>
        exact ⟨hscope name (Scope.mem_names.mpr (.inr (.inr (.inr h)))), hinGrammar⟩
      | separatorValue h =>
        exact ⟨hscope name (Scope.mem_names.mpr (.inr (.inr (.inl h)))), hinGrammar⟩
      | lexicalTerminal howner h => exact ⟨hwhole rfl, hinGrammar⟩
      | lexicalImport howner hterminal hp => exact ⟨hwhole rfl, himported hp⟩
      | parameter h =>
        exact ⟨hwhole rfl, by simpa using ⟨hgrammar, hanchors _ List.mem_cons_self⟩⟩
      | terminal hparameter h => exact ⟨hwhole rfl, hinGrammar⟩
      | nonterminal hparameter hterminal h => exact ⟨hwhole rfl, hinGrammar⟩
      | «import» hparameter hterminal hnonterminal hp => exact ⟨hwhole rfl, himported hp⟩
    | _ => exact absurd hhome hdeclared

/-- The scope has names with the property after the occurrence too. -/
theorem AtHome.written_scope {o : Occurrence} {name : String} {home : List String} {range : Range}
    (hhome : v.AtHome o.grammar o.role name home) (hwritten : o.Written P)
    (hscope : ∀ a ∈ v.scope.names, P a) (hname : o.name? = some name) :
    ∀ a ∈ (v.record o.grammar o.role name range).scope.names, P a := by
  rw [scope_record]
  intro a ha
  rcases Scope.mem_names_enter ha with ha | rfl
  · exact hscope a ha
  · exact (hhome.written hwritten hscope hname).1

/-- **Whatever is recorded has been found at home**, by an occurrence at its range. -/
theorem Clean.exists_home (hclean : v.Clean os w) (hscope : ∀ a ∈ v.scope.names, P a)
    (hwritten : ∀ o ∈ os, o.Written P) :
    ∀ m ∈ w.mentions, m ∈ v.mentions ∨ ∃ o ∈ os, ∃ home name,
      v.lines.range? o.token.span = some m.range ∧ m.name = joinPath (home ++ [name]) ∧
        o.name? = some name ∧ P name ∧ ∀ a ∈ home, P a := by
  induction hclean with
  | nil v => exact fun m hm => .inl hm
  | @cons v w o os name range home hname hrange hhome hrest ih =>
    have ho : o.Written P := hwritten o List.mem_cons_self
    intro m hm
    rcases ih (hhome.written_scope ho hscope hname)
      (fun o' ho' => hwritten o' (List.mem_cons_of_mem _ ho')) m hm with
      hm | ⟨o', ho', home', name', hrange', hfound⟩
    · rcases hhome.mem_mentions_record.mp hm with hm | rfl
      · exact .inl hm
      · exact .inr ⟨o, List.mem_cons_self, home, name, hrange, rfl, hname,
          hhome.written ho hscope hname⟩
    · rw [lines_record] at hrange'
      exact .inr ⟨o', List.mem_cons_of_mem _ ho', home', name', hrange', hfound⟩

end View

/-! ### A use after the renaming -/

/-- The kinds are those of the same names after the renaming, and the new name has none in
any scope. -/
structure Renaming.Moves (ρ : Renaming) (kindOf kindOf' : String → Option Kind) : Prop where
  /-- A renamed name has the kind that it had. -/
  renamed : ∀ {n n'}, ρ.Renames n n' → kindOf' n' = kindOf n
  /-- The new name has had no kind. -/
  unclaimed : ∀ scope, kindOf (qualify scope ρ.new) = none

namespace Scope

section

variable {ρ : Renaming} {scope : Scope} {kindOf kindOf' : String → Option Kind}
  {g name : String}

/-- The first parent that knows a name is the first after the renaming too. -/
theorem importer?_rename (hkinds : ρ.Moves kindOf kindOf')
    (hscope : ∀ a ∈ scope.names, ρ.Ordinary a) (hname : ρ.Ordinary name) {accepts : Kind → Bool}
    {p : String} (h : scope.importer? kindOf name accepts = some p) :
    (scope.rename ρ g).importer? kindOf' (ρ.label [p] name) accepts = some (ρ.label [] p) := by
  have hkind : ∀ q ∈ scope.imports, ∀ a, Dotless a →
      kindOf' (qualify (ρ.label [] q) (ρ.label [q] a)) = kindOf (qualify q a) := by
    intro q hq a ha
    have hdotless : Dotless q := (hscope q (mem_names.mpr (.inl hq))).dotless
    exact hkinds.renamed (Renaming.renames_qualify hdotless ha)
  obtain ⟨haccepts, before, after, hsplit, hbefore⟩ := List.find?_eq_some_iff_append.mp h
  show (scope.imports.map (ρ.label [])).find? _ = _
  rw [List.find?_map, List.find?_eq_some_iff_append.mpr ⟨?_, before, after, hsplit, ?_⟩]
  · rfl
  · show (kindOf' (qualify (ρ.label [] p) (ρ.label [p] name))).any accepts = true
    rw [hkind p (mem_imports_of_importer? h) name hname.dotless]
    exact haccepts
  · intro q hq
    have hq' : q ∈ scope.imports := by
      rw [hsplit]
      exact List.mem_append_left _ hq
    -- what the earlier parent makes of the new name, it has made of some name before
    obtain ⟨a, ha⟩ := Renaming.label_surjective (ρ := ρ) [q] (ρ.label [p] name)
    show (!(kindOf' (qualify (ρ.label [] q) (ρ.label [p] name))).any accepts) = true
    rcases Renaming.eq_or_eq_new_of_label_eq hname.ne_new ha with rfl | rfl
    · rw [← ha, hkind q hq' a hname.dotless]
      exact hbefore q hq
    · rw [← ha, hkind q hq' ρ.new ρ.dotless_new, hkinds.unclaimed]
      rfl

/-- A name that is not in a list is not in the renamed one either, whatever scopes the two
are renamed in. -/
theorem not_mem_map_label {names home scope : List String} (hnames : ∀ a ∈ names, ρ.Ordinary a)
    (hname : ρ.Ordinary name) (h : name ∉ names) :
    ρ.label home name ∉ names.map (ρ.label scope) := by
  intro hmem
  obtain ⟨a, ha, heq⟩ := List.mem_map.mp hmem
  exact h (Renaming.eq_of_label_eq (hnames a ha).ne_new hname.ne_new heq ▸ ha)

/-- **A use stays at home.** -/
theorem AtHome.rename {u : Use} {home : List String} (h : scope.AtHome kindOf g name u home)
    (hkinds : ρ.Moves kindOf kindOf') (hscope : ∀ a ∈ scope.names, ρ.Ordinary a)
    (hname : ρ.Ordinary name) (hanchors : ∀ a ∈ (Role.use u).anchors, ρ.Ordinary a.2) :
    (scope.rename ρ g).AtHome kindOf' (ρ.label [] g) (ρ.label home name) (u.rename ρ g)
      (ρ.move [] home) := by
  have hterminals : ∀ a ∈ scope.terminals, ρ.Ordinary a :=
    fun a ha => hscope a (mem_names.mpr (.inr (.inr (.inl ha))))
  have hnonterminals : ∀ a ∈ scope.nonterminals, ρ.Ordinary a :=
    fun a ha => hscope a (mem_names.mpr (.inr (.inr (.inr ha))))
  -- the name is labelled in its home, and what it is compared with is labelled in the grammar
  -- or in the rule: the scopes differ, so that injectivity of one label is not enough
  have howner : ∀ {owner home}, u = .lexical owner → name ≠ owner →
      ρ.label home name ≠ ρ.label [g] owner := by
    rintro owner home rfl hne heq
    exact hne (Renaming.eq_of_label_eq hname.ne_new (hanchors _ List.mem_cons_self).ne_new heq)
  have hparameters : ∀ {rule parameters home}, u = .symbol rule parameters → name ∉ parameters →
      ρ.label home name ∉ parameters.map (ρ.label [g, rule]) := by
    rintro rule parameters home rfl hne
    refine not_mem_map_label (fun a ha => ?_) hname hne
    exact hanchors (.parameter rule, a) (List.mem_cons_of_mem _ (List.mem_map_of_mem ha))
  cases h with
  | parent => exact .parent
  | action => exact .action
  | virtual => exact .virtual
  | context h => exact .context (List.mem_map_of_mem h)
  | axiomValue h => exact .axiomValue (List.mem_map_of_mem h)
  | separatorValue h => exact .separatorValue (List.mem_map_of_mem h)
  | lexicalTerminal hne h => exact .lexicalTerminal (howner rfl hne) (List.mem_map_of_mem h)
  | lexicalImport hne hterminal hp =>
    exact .lexicalImport (howner rfl hne) (not_mem_map_label hterminals hname hterminal)
      (importer?_rename hkinds hscope hname hp)
  | parameter h => exact .parameter (List.mem_map_of_mem h)
  | terminal hparameter h => exact .terminal (hparameters rfl hparameter) (List.mem_map_of_mem h)
  | nonterminal hparameter hterminal h =>
    exact .nonterminal (hparameters rfl hparameter)
      (not_mem_map_label hterminals hname hterminal) (List.mem_map_of_mem h)
  | «import» hparameter hterminal hnonterminal hp =>
    exact .import (hparameters rfl hparameter) (not_mem_map_label hterminals hname hterminal)
      (not_mem_map_label hnonterminals hname hnonterminal)
      (importer?_rename hkinds hscope hname hp)

end

theorem map_addNew {α β : Type} [DecidableEq α] [DecidableEq β] {f : α → β}
    (hf : Function.Injective f) (as : List α) (a : α) :
    (addNew as a).map f = addNew (as.map f) (f a) := by
  simp only [addNew, List.mem_map_of_injective hf]
  split
  · rfl
  · rw [List.map_append, List.map_singleton]

/-- What a grammar declares enters the renamed scope under the renamed name. -/
theorem rename_enter {ρ : Renaming} {v : View} {g name : String} {role : Role}
    {home : List String} (hhome : v.AtHome g role name home) (scope : Scope)
    (hrole : role ≠ .grammar) :
    (scope.enter role name).rename ρ g =
      (scope.rename ρ g).enter (role.rename ρ g) (ρ.label home name) := by
  have hadd : ∀ (inner : List String) (names : List String),
      (addNew names name).map (ρ.label inner) =
        addNew (names.map (ρ.label inner)) (ρ.label inner name) :=
    fun inner names => map_addNew (Renaming.label_injective inner) names name
  -- what is entered is entered in the grammar, except for a parent
  cases role with
  | grammar => exact absurd rfl hrole
  | context =>
    rw [← Option.some.inj (hhome : some [g] = some home)]
    exact congrArg (fun names => { scope.rename ρ g with contexts := names }) (hadd [g] _)
  | terminal =>
    rw [← Option.some.inj (hhome : some [g] = some home)]
    exact congrArg (fun names => { scope.rename ρ g with terminals := names }) (hadd [g] _)
  | nonterminal =>
    rw [← Option.some.inj (hhome : some [g] = some home)]
    exact congrArg (fun names => { scope.rename ρ g with nonterminals := names }) (hadd [g] _)
  | parameter rule => rfl
  | use u =>
    cases u with
    | parent =>
      cases hhome
      exact congrArg (fun names => { scope.rename ρ g with imports := names }) (hadd [] _)
    | _ => rfl

end Scope

/-! ### Views side by side -/

/-- The range is the same, and the symbol is renamed. -/
def NamedMention.RenamedTo (ρ : Renaming) (m m' : NamedMention) : Prop :=
  ρ.Carries m.name m'.name ∧ m'.range = m.range

namespace View

/-- The view `v'` over the renamed occurrences is where `v` is, in the grammar `g`. -/
structure RenamedTo (ρ : Renaming) (g : String) (v v' : View) : Prop where
  /-- The lines are the same. -/
  lines : v'.lines = v.lines
  /-- The mistakes are the same. -/
  log : v'.log = v.log
  /-- The current grammar declares the renamed names. -/
  scope : v'.scope = v.scope.rename ρ g
  /-- It declares nothing under the new name. -/
  ordinary : ∀ a ∈ v.scope.names, ρ.Ordinary a
  /-- A renamed name stands as it did. -/
  standing : ∀ {n n'}, ρ.Renames n n' → v'.standing n' = v.standing n
  /-- The new name has no kind in any scope. -/
  unclaimed : ∀ scope, v.kindOf (qualify scope ρ.new) = none
  /-- The definitions are renamed. -/
  definitions : List.Forall₂ (NamedMention.RenamedTo ρ) v.definitions v'.definitions
  /-- The references are renamed. -/
  references : List.Forall₂ (NamedMention.RenamedTo ρ) v.references v'.references

namespace RenamedTo

variable {ρ : Renaming} {v v' w : View} {g : String}

theorem moves (h : v.RenamedTo ρ g v') : ρ.Moves v.kindOf v'.kindOf where
  renamed := fun hn => congrArg Standing.kind (h.standing hn)
  unclaimed := h.unclaimed

/-- Views begin side by side. -/
theorem start (ρ : Renaming) (g : String) (d : DocumentId) (text source : String) :
    (View.start (fun _ => none) d text source).RenamedTo ρ g
      (.start (fun _ => none) d text source) where
  lines := rfl
  log := rfl
  scope := rfl
  ordinary := fun _ ha => absurd ha List.not_mem_nil
  standing := fun _ => rfl
  unclaimed := fun _ => rfl
  definitions := .nil
  references := .nil

/-- A name and its renamed form change alike. -/
theorem change (h : v.RenamedTo ρ g v') {n n' : String} (hn : ρ.Carries n n')
    (f : Standing → Standing) : (v.change n f).RenamedTo ρ g (v'.change n' f) :=
  { h with
    -- which name changes is told apart in both views alike
    standing := fun {m m'} hm => by
      show (if m' = n' then f (v'.standing m') else v'.standing m') =
        if m = n then f (v.standing m) else v.standing m
      simp only [hm.eq_iff hn.renames, h.standing hm]
    unclaimed := fun scope => by
      show (if qualify scope ρ.new = n then _ else v.standing (qualify scope ρ.new)).kind = none
      rw [if_neg (hn.ne_qualify_new scope).symm]
      exact h.unclaimed scope }

theorem define (h : v.RenamedTo ρ g v') {n n' : String} (hn : ρ.Carries n n') (kind : Kind)
    (range : Range) : (v.define n kind range).RenamedTo ρ g (v'.define n' kind range) :=
  { h.change hn (·.settle kind) with
    definitions := List.rel_append h.definitions (.cons ⟨hn, rfl⟩ .nil) }

theorem refer (h : v.RenamedTo ρ g v') {n n' : String} (hn : ρ.Carries n n') (range : Range) :
    RenamedTo ρ g { v with references := v.references ++ [⟨n, range⟩] }
      { v' with references := v'.references ++ [⟨n', range⟩] } :=
  { h with references := List.rel_append h.references (.cons ⟨hn, rfl⟩ .nil) }

/-- What the grammar declares enters either scope. -/
theorem enter (h : v.RenamedTo ρ g v') {role : Role} {name : String} {home : List String}
    (hhome : w.AtHome g role name home) (hname : ρ.Ordinary name) (hrole : role ≠ .grammar) :
    RenamedTo ρ g { v with scope := v.scope.enter role name }
      { v' with scope := v'.scope.enter (role.rename ρ g) (ρ.label home name) } :=
  { h with
    scope := by rw [h.scope, Scope.rename_enter hhome v.scope hrole]
    ordinary := fun a ha => (Scope.mem_names_enter ha).elim (h.ordinary a) fun heq => heq ▸ hname }

/-- A grammar begins with an empty scope. -/
theorem enter_grammar (h : v.RenamedTo ρ g v') (g' : String) :
    RenamedTo ρ g' { v with scope := .empty } { v' with scope := .empty } :=
  { h with
    scope := rfl
    ordinary := fun _ ha => absurd ha List.not_mem_nil }

/-- A use declares by itself what it did, under the renamed name. -/
theorem announce (h : v.RenamedTo ρ g v') {u : Use} {name : String} {home : List String}
    (hhome : w.AtHome g (.use u) name home)
    (hn : ρ.Carries (joinPath (home ++ [name]))
      (joinPath (ρ.move [] home ++ [ρ.label home name]))) :
    (v.announce (u.suggestion? g name)).RenamedTo ρ g
      (v'.announce ((u.rename ρ g).suggestion? (ρ.label [] g) (ρ.label home name))) := by
  cases u with
  | parent => cases hhome; exact h.change hn (·.suggest .grammar)
  | action => cases hhome; exact h.change hn (·.suggest .action)
  | virtual => cases hhome; exact h.change hn (·.suggest .virtual)
  | _ => exact h

/-- **One occurrence and its renamed form**: the second has its home where the first has it,
and the views stay side by side. -/
theorem record (h : v.RenamedTo ρ g v') {o : Occurrence} {name : String} {home : List String}
    (hgrammar : o.role ≠ .grammar → o.grammar = g)
    (hhome : v.AtHome o.grammar o.role name home) (hwritten : o.Written ρ.Ordinary)
    (hname : o.name? = some name) (range : Range) :
    v'.AtHome (ρ.label [] o.grammar) (o.role.rename ρ o.grammar) (ρ.label home name)
        (ρ.move [] home) ∧
      (v.record o.grammar o.role name range).RenamedTo ρ o.grammar
        (v'.record (ρ.label [] o.grammar) (o.role.rename ρ o.grammar) (ρ.label home name)
          range) := by
  obtain ⟨hordinary, hordinaryHome⟩ := hhome.written hwritten h.ordinary hname
  have hn := ρ.carries_home (fun a ha => (hordinaryHome a ha).dotless) hordinary
  -- a role is at home where it declares its name, or else it is a use
  by_cases hdeclared : o.role.declaredIn? o.grammar = some home
  · -- a declaration: both define their names, with the same kind
    have hdeclared' := declaredIn?_rename (ρ := ρ) hdeclared
    refine ⟨v'.atHome_of_declaredIn? hdeclared' _, ?_⟩
    obtain ⟨kind, hkind, hrecord⟩ := v.record_of_declaredIn? hdeclared name range
    obtain ⟨kind', hkind', hrecord'⟩ :=
      v'.record_of_declaredIn? hdeclared' (ρ.label home name) range
    rw [declares?_rename, hkind] at hkind'
    obtain rfl := Option.some.inj hkind'
    rw [hrecord, hrecord']
    by_cases hrole : o.role = .grammar
    · rw [hrole]
      exact (h.define hn kind range).enter_grammar o.grammar
    · obtain rfl := hgrammar hrole
      exact (h.define hn kind range).enter hhome hordinary hrole
  · obtain ⟨grammar, role, token⟩ := o
    cases role with
    | use u =>
      -- a use: both announce the same, and then both have found their names
      obtain rfl := hgrammar (by simp)
      have hannounced := h.announce hhome hn
      have hhome' := Scope.AtHome.rename hhome hannounced.moves h.ordinary hordinary
        hwritten.anchors
      rw [← h.scope] at hhome'
      refine ⟨hhome', ?_⟩
      rw [record_of_use hhome, Role.rename, record_of_use hhome']
      have hreferred := (hannounced.refer hn range).enter hhome hordinary (by simp)
      rw [scope_announce, scope_announce] at hreferred
      exact hreferred
    | _ => exact absurd hhome hdeclared

/-- **A clean walk and its renamed form**: the second is clean too, and the views end side
by side.  A token must have got the name that the renaming asks for where its record
stands. -/
theorem walk {f : Token → Token} {os : List Occurrence} (h : v.RenamedTo ρ g v')
    (hclean : v.Clean os w) (hcontinues : Continues g os)
    (hwritten : ∀ o ∈ os, o.Written ρ.Ordinary)
    (hspan : ∀ o ∈ os, (f o.token).span = o.token.span)
    (hnames : ∀ o ∈ os, ∀ home name range, o.name? = some name →
      v.lines.range? o.token.span = some range → Dotless name → (∀ a ∈ home, Dotless a) →
        ⟨joinPath (home ++ [name]), range⟩ ∈ w.mentions →
          (o.rename ρ f).name? = some (ρ.label home name)) :
    ∃ g' w', v'.Clean (os.map (·.rename ρ f)) w' ∧ w.RenamedTo ρ g' w' := by
  -- along the first walk; the second view and the grammar change with every occurrence
  induction hclean generalizing g v' with
  | nil v => exact ⟨g, v', .nil v', h⟩
  | @cons v w o os name range home hname hrange hhome hrest ih =>
    have ho : o.Written ρ.Ordinary := hwritten o List.mem_cons_self
    obtain ⟨hordinary, hordinaryHome⟩ := hhome.written ho h.ordinary hname
    -- the record is still there in the end, and tells what the token was renamed to
    have hrecorded : ⟨joinPath (home ++ [name]), range⟩ ∈ w.mentions :=
      hrest.mentions_subset (hhome.mem_mentions_record.mpr (.inr rfl))
    have hname' : (o.rename ρ f).name? = some (ρ.label home name) :=
      hnames o List.mem_cons_self home name range hname hrange hordinary.dotless
        (fun a ha => (hordinaryHome a ha).dotless) hrecorded
    have hrange' : v'.lines.range? (o.rename ρ f).token.span = some range := by
      show v'.lines.range? (f o.token).span = some range
      rw [hspan o List.mem_cons_self, h.lines]
      exact hrange
    obtain ⟨hhome', hnext⟩ := h.record hcontinues.1 hhome ho hname range
    obtain ⟨g', w', hclean', hend⟩ := ih hnext hcontinues.2
      (fun o' ho' => hwritten o' (List.mem_cons_of_mem _ ho'))
      (fun o' ho' => hspan o' (List.mem_cons_of_mem _ ho'))
      (fun o' ho' home' name' range' hname hrange => by
        rw [lines_record] at hrange
        exact hnames o' (List.mem_cons_of_mem _ ho') home' name' range' hname hrange)
    exact ⟨g', w', .cons hname' hrange' hhome' hclean', hend⟩

end RenamedTo

end View

end GrammarIndex
