import GrammarIndex.Proofs.Analysis.Knowledge
import GrammarIndex.Proofs.Grammar.Members
import GrammarIndex.Proofs.Symbol.Name

/-!
# How names evolve

An analysis goes over the occurrences of its document, and each says something about at
most one name.  So every name evolves by itself: where it stands in the end depends on
where it stood in the beginning and on the occurrences that speak of it, whatever other
names do.  The names that are looked up on the way are all qualified, and whether the
analysis fails does not depend on names at all.

## Main definitions

* `Role.effect`, `Occurrence.effect` — what an occurrence does to the standing of a name.
* `Scope.namesOf` — the names that occurrences of a role have entered in a scope.
* `View.AgreesOn` — two views to which the names in some scopes stand the same.
* `Tree.Inherits` — a grammar of the document has a parent of this name.

## Main results

* `View.standing_walk` — **every name evolves by itself.**
* `Scope.namesOf_enter` — what an occurrence enters in a scope.
* `findingOf_congr_of_inherits` — **only the kinds of names in parents matter**, and
  `findingOf_congr` for all qualified names.
* `exists_findingOf_eq_ok` — whether an analysis fails does not depend on kinds.
-/

namespace GrammarIndex

/-! ### The evolution of a name -/

/-- What an occurrence of this name does to the standing of the name `n`. -/
def Role.effect (role : Role) (grammar name n : String) (s : Standing) : Standing :=
  match role.act grammar name with
  | .define q kind => if n = q then s.settle kind else s
  | .use u =>
    match u.suggestion? grammar name with
    | some (q, kind) => if n = q then s.suggest kind else s
    | none => s

/-- What an occurrence does to the standing of the name `n`. -/
def Occurrence.effect (n : String) (s : Standing) (o : Occurrence) : Standing :=
  match o.name? with
  | some name => o.role.effect o.grammar name n s
  | none => s

/-- An occurrence leaves the standing of a name, or settles a kind, or suggests one. -/
theorem Role.effect_cases (role : Role) (grammar name n : String) (s : Standing) :
    role.effect grammar name n s = s ∨
      ∃ kind, role.effect grammar name n s = s.settle kind ∨
        role.effect grammar name n s = s.suggest kind := by
  unfold effect
  split
  · next q kind _ =>
    split
    · exact .inr ⟨kind, .inl rfl⟩
    · exact .inl rfl
  · split
    · next q kind _ =>
      split
      · exact .inr ⟨kind, .inr rfl⟩
      · exact .inl rfl
    · exact .inl rfl

/-- The names that an occurrence of this name says anything about are qualified by its
grammar, unless it declares a grammar or names a parent. -/
theorem Role.effect_eq_self {role : Role} {grammar name n : String}
    (hgrammar : role = .grammar → name ≠ n) (hparent : role = .use .parent → name ≠ n)
    (hinner : ∀ a, qualify grammar a ≠ n) (s : Standing) :
    role.effect grammar name n s = s := by
  have hnested : ∀ rule, n ≠ qualify (qualify grammar rule) name := by
    intro rule
    rw [qualify_qualify]
    exact (hinner _).symm
  cases role with
  | grammar => exact if_neg (hgrammar rfl).symm
  | parameter rule => exact if_neg (hnested rule)
  | use use =>
    cases use with
    | parent => exact if_neg (hparent rfl).symm
    | action => exact if_neg (hinner name).symm
    | virtual => exact if_neg (hinner name).symm
    | _ => rfl
  | _ => exact if_neg (hinner name).symm

namespace View

@[simp] theorem standing_recordMeaning (v : View) (meaning : Meaning) (name : String)
    (range : Range) : (v.recordMeaning meaning name range).standing = v.standing := by
  cases meaning <;> rfl

theorem standing_announce (v : View) (suggestion : Option (String × Kind)) (n : String) :
    (v.announce suggestion).standing n =
      match suggestion with
      | some (q, kind) => if n = q then (v.standing n).suggest kind else v.standing n
      | none => v.standing n := by
  cases suggestion <;> rfl

theorem standing_record (v : View) (grammar : String) (role : Role) (name : String)
    (range : Range) (n : String) :
    (v.record grammar role name range).standing n = role.effect grammar name n (v.standing n) := by
  unfold record Role.effect
  cases role.act grammar name with
  | define q kind => rfl
  | use use =>
    show (v.recordUse grammar use name range).standing n = _
    unfold recordUse
    rw [standing_recordMeaning, standing_announce]

@[simp] theorem scope_announce (v : View) (suggestion : Option (String × Kind)) :
    (v.announce suggestion).scope = v.scope := by
  cases suggestion <;> rfl

@[simp] theorem lines_announce (v : View) (suggestion : Option (String × Kind)) :
    (v.announce suggestion).lines = v.lines := by
  cases suggestion <;> rfl

@[simp] theorem scope_recordMeaning (v : View) (meaning : Meaning) (name : String)
    (range : Range) : (v.recordMeaning meaning name range).scope = v.scope := by
  cases meaning <;> rfl

@[simp] theorem lines_recordMeaning (v : View) (meaning : Meaning) (name : String)
    (range : Range) : (v.recordMeaning meaning name range).lines = v.lines := by
  cases meaning <;> rfl

@[simp] theorem lines_record (v : View) (grammar : String) (role : Role) (name : String)
    (range : Range) : (v.record grammar role name range).lines = v.lines := by
  unfold record
  cases role.act grammar name with
  | define q kind => rfl
  | use use => simp [recordUse]

@[simp] theorem scope_record (v : View) (grammar : String) (role : Role) (name : String)
    (range : Range) :
    (v.record grammar role name range).scope = v.scope.enter role name := by
  unfold record
  cases role.act grammar name with
  | define q kind => rfl
  | use use => simp [recordUse]

/-- A walk that goes on has read the name of the first occurrence and found its range. -/
theorem exists_of_walk_cons {v w : View} {o : Occurrence} {os : List Occurrence}
    (h : v.walk (o :: os) = .ok w) :
    ∃ name range, o.name? = some name ∧ v.lines.range? o.token.span = some range ∧
      (v.record o.grammar o.role name range).walk os = .ok w := by
  rw [walk_cons, visit] at h
  cases hname : o.name? with
  | none => simp [hname, Except.bind] at h
  | some name =>
    cases hrange : v.lines.range? o.token.span with
    | none => simp [hname, hrange, Except.bind] at h
    | some range =>
      simp only [hname, hrange] at h
      exact ⟨name, range, rfl, rfl, h⟩

/-- A walk over two lists comes by the end of the first. -/
theorem exists_of_walk_append {v w : View} {os os' : List Occurrence}
    (h : v.walk (os ++ os') = .ok w) : ∃ u, v.walk os = .ok u ∧ u.walk os' = .ok w := by
  rw [walk_append] at h
  cases hwalk : v.walk os with
  | error fault =>
    rw [hwalk] at h
    exact absurd h (by simp [Except.bind])
  | ok u =>
    rw [hwalk] at h
    exact ⟨u, rfl, h⟩

/-- Two walks that go on, one after the other, are one walk. -/
theorem walk_append_of_walk {u v w : View} {os os' : List Occurrence} (h : u.walk os = .ok v)
    (h' : v.walk os' = .ok w) : u.walk (os ++ os') = .ok w := by
  rw [walk_append, h]
  exact h'

/-- **Every name evolves by itself**: where it stands after the occurrences depends on
where it stood before, and on no other name. -/
theorem standing_walk {v w : View} {os : List Occurrence} (h : v.walk os = .ok w) (n : String) :
    w.standing n = os.foldl (Occurrence.effect n) (v.standing n) := by
  induction os generalizing v with
  | nil => rw [Except.ok.inj h, List.foldl_nil]
  | cons o os ih =>
    obtain ⟨name, range, hname, -, hrest⟩ := exists_of_walk_cons h
    rw [ih hrest, List.foldl_cons, standing_record, Occurrence.effect, hname]

end View

/-! ### Names that are entered in a scope -/

/-- The names of this role are entered in a scope. -/
def Role.isEntered : Role → Bool
  | context => true
  | terminal => true
  | nonterminal => true
  | use .parent => true
  | _ => false

namespace Scope

/-- The names in a scope that occurrences of a role have entered. -/
def namesOf (scope : Scope) : Role → List String
  | .context => scope.contexts
  | .terminal => scope.terminals
  | .nonterminal => scope.nonterminals
  | .use .parent => scope.imports
  | _ => []

theorem namesOf_empty (role : Role) : empty.namesOf role = [] := by
  cases role with
  | use u => cases u <;> rfl
  | _ => rfl

theorem namesOf_of_not_isEntered (scope : Scope) {role : Role} (h : role.isEntered = false) :
    scope.namesOf role = [] := by
  cases role with
  | context | terminal | nonterminal => exact absurd h (by simp [Role.isEntered])
  | use u =>
    cases u with
    | parent => exact absurd h (by simp [Role.isEntered])
    | _ => rfl
  | _ => rfl

theorem namesOf_enter (scope : Scope) {role role' : Role} (hentered : role'.isEntered = true)
    (hrole : role ≠ .grammar) (name : String) :
    (scope.enter role name).namesOf role' =
      if role = role' then addNew (scope.namesOf role') name else scope.namesOf role' := by
  split
  · next heq =>
    subst heq
    cases role with
    | use u =>
      cases u with
      | parent => rfl
      | _ => exact absurd hentered (by simp [Role.isEntered])
    | parameter rule => exact absurd hentered (by simp [Role.isEntered])
    | grammar => exact absurd rfl hrole
    | _ => rfl
  · next hne =>
    -- another role enters its name elsewhere, or nowhere
    unfold enter namesOf
    split <;> grind

/-- A name that is entered under a role was there before, or is that of the occurrence. -/
theorem mem_namesOf_enter {scope : Scope} {role : Role} {name a : String} (role' : Role)
    (h : a ∈ (scope.enter role name).namesOf role') :
    a ∈ scope.namesOf role' ∨ role = role' ∧ a = name := by
  by_cases hrole : role = .grammar
  · rw [hrole, enter, namesOf_empty] at h
    exact absurd h List.not_mem_nil
  cases hentered : role'.isEntered with
  | false =>
    rw [namesOf_of_not_isEntered _ hentered] at h
    exact absurd h List.not_mem_nil
  | true =>
    rw [namesOf_enter _ hentered hrole] at h
    split at h
    · next heq => exact (mem_addNew.mp h).imp_right fun ha => ⟨heq, ha⟩
    · exact .inl h

end Scope

/-! ### Only names in parents are looked up -/

namespace View

/-- The views differ at most in names outside these scopes, and all imports are among the
scopes. -/
structure AgreesOn (scopes : String → Prop) (v w : View) : Prop where
  /-- The document is the same. -/
  document : v.document = w.document
  /-- The lines are the same. -/
  lines : v.lines = w.lines
  /-- Every name in one of the scopes stands the same. -/
  standing : ∀ {scope : String}, scopes scope → ∀ name,
    v.standing (qualify scope name) = w.standing (qualify scope name)
  /-- The definitions are the same. -/
  definitions : v.definitions = w.definitions
  /-- The references are the same. -/
  references : v.references = w.references
  /-- The mistakes are the same. -/
  log : v.log = w.log
  /-- The current grammar declares the same names. -/
  scope : v.scope = w.scope
  /-- It has imported nothing but the scopes. -/
  imports : ∀ parent ∈ v.scope.imports, scopes parent

namespace AgreesOn

variable {scopes : String → Prop} {v w : View}

theorem refl (h : ∀ parent ∈ v.scope.imports, scopes parent) : v.AgreesOn scopes v :=
  ⟨rfl, rfl, fun _ _ => rfl, rfl, rfl, rfl, rfl, h⟩

theorem meaning (h : v.AgreesOn scopes w) (grammar : String) (use : Use) (name : String) :
    v.scope.meaning v.kindOf grammar use name = w.scope.meaning w.kindOf grammar use name := by
  have himports := h.imports
  rw [h.scope] at himports ⊢
  have himported : ∀ accepts : Kind → Bool,
      w.scope.importedName? v.kindOf name accepts =
        w.scope.importedName? w.kindOf name accepts := by
    intro accepts
    rw [Scope.importedName?, Scope.importedName?, ← List.head?_filter, ← List.head?_filter]
    refine congrArg List.head? (List.filter_congr fun q hq => ?_)
    obtain ⟨parent, hparent, rfl⟩ := List.mem_map.mp hq
    exact congrArg (fun s : Standing => s.kind.any accepts)
      (h.standing (himports parent hparent) name)
  cases use with
  | lexical owner => simp only [Scope.meaning, himported]
  | symbol rule parameters => simp only [Scope.meaning, himported]
  | _ => rfl

/-- A change of one name keeps the agreement. -/
theorem change (h : v.AgreesOn scopes w) (name : String) (f : Standing → Standing) :
    (v.change name f).AgreesOn scopes (w.change name f) :=
  { h with
    standing := fun {scope} hscope n => by
      show (if qualify scope n = name then _ else _) = if qualify scope n = name then _ else _
      rw [h.standing hscope] }

theorem record (h : v.AgreesOn scopes w) (grammar : String) {role : Role} {name : String}
    (hname : role = .use .parent → scopes name) (range : Range) :
    (v.record grammar role name range).AgreesOn scopes (w.record grammar role name range) := by
  -- the scope is entered last, in both views alike
  have hscope : ∀ {v' w' : View}, v'.AgreesOn scopes w' →
      AgreesOn scopes { v' with scope := v'.scope.enter role name }
        { w' with scope := w'.scope.enter role name } := by
    intro v' w' h'
    refine { h' with scope := congrArg (·.enter role name) h'.scope, imports := ?_ }
    intro parent hparent
    rcases Scope.mem_namesOf_enter (.use .parent) hparent with hold | ⟨hrole, rfl⟩
    · exact h'.imports parent hold
    · exact hname hrole
  refine hscope ?_
  cases role.act grammar name with
  | define q kind =>
    have hchanged := h.change q (·.settle kind)
    exact { hchanged with
      definitions := congrArg (· ++ [(⟨q, range⟩ : NamedMention)]) h.definitions }
  | use use =>
    -- what a use declares is declared in both, and then it means the same
    have hannounced : (v.announce (use.suggestion? grammar name)).AgreesOn scopes
        (w.announce (use.suggestion? grammar name)) := by
      cases use.suggestion? grammar name with
      | none => exact h
      | some suggested => exact h.change suggested.1 (·.suggest suggested.2)
    show (View.recordUse v grammar use name range).AgreesOn scopes
      (w.recordUse grammar use name range)
    simp only [recordUse, hannounced.meaning]
    cases Scope.meaning _ _ grammar use name with
    | symbol q =>
      exact { hannounced with
        references := congrArg (· ++ [(⟨q, range⟩ : NamedMention)]) hannounced.references }
    | mistake m =>
      exact { hannounced with log := congrArg (·.note m range name) hannounced.log }

theorem visit (h : v.AgreesOn scopes w) {o : Occurrence}
    (hparent : o.role = .use .parent → scopes o.token.text) :
    EndAlike Eq (AgreesOn scopes) (v.visit o) (w.visit o) := by
  unfold View.visit
  rw [h.document, h.lines]
  cases hname : o.name? with
  | none => exact .error rfl
  | some name =>
    cases w.lines.range? o.token.span with
    | none => exact .error rfl
    | some range =>
      refine .ok (h.record o.grammar (fun hrole => ?_) range)
      rw [Occurrence.name?_of_not_isLiteral (by rw [hrole]; rfl)] at hname
      exact Option.some.inj hname ▸ hparent hrole

theorem finding (h : v.AgreesOn scopes w) : v.finding = w.finding := by
  simp only [View.finding, h.definitions, h.references, h.log]

end AgreesOn

end View

/-- A grammar of the document has a parent of this name. -/
def Tree.Inherits (tree : Tree) (parent : String) : Prop :=
  ∃ g ∈ tree.grammars, ∃ p ∈ g.parents, p.text = parent

/-- What is used as a parent is one. -/
theorem Tree.inherits_of_mem_occurrences {tree : Tree} {o : Occurrence}
    (ho : o ∈ tree.occurrences) (hrole : o.role = .use .parent) : tree.Inherits o.token.text := by
  obtain ⟨g, hg, hmember⟩ := Tree.exists_memberOf ho
  exact ⟨g, hg, o.token, hmember.mem_parents hrole, rfl⟩

/-- Views of documents begin alike where the names in some scopes have the same kinds. -/
theorem View.agreesOn_start {kindOf kindOf' : String → Option Kind} {scopes : String → Prop}
    (h : ∀ {scope : String}, scopes scope → ∀ name,
      kindOf (qualify scope name) = kindOf' (qualify scope name))
    (source : String) (d : DocumentId) (text : String) :
    (View.start kindOf d text source).AgreesOn scopes (.start kindOf' d text source) where
  document := rfl
  lines := rfl
  standing := fun hscope name => congrArg Standing.ofOthers (h hscope name)
  definitions := rfl
  references := rfl
  log := rfl
  scope := rfl
  imports := fun _ hparent => absurd hparent List.not_mem_nil

/-- **Only the kinds of names in parents matter** to what an analysis finds. -/
theorem findingOf_congr_of_inherits {kindOf kindOf' : String → Option Kind} {tree : Tree}
    (h : ∀ {parent : String}, tree.Inherits parent → ∀ name,
      kindOf (qualify parent name) = kindOf' (qualify parent name))
    (source : String) (d : DocumentId) (text : String) :
    findingOf source kindOf d text tree = findingOf source kindOf' d text tree := by
  have hstart : (View.start kindOf d text source).AgreesOn tree.Inherits
      (.start kindOf' d text source) := View.agreesOn_start h source d text
  have hwalk : EndAlike Eq (View.AgreesOn tree.Inherits)
      ((View.start kindOf d text source).walk tree.occurrences)
      ((View.start kindOf' d text source).walk tree.occurrences) :=
    .foldlM (fun o ho h => h.visit (Tree.inherits_of_mem_occurrences ho)) hstart
  exact (hwalk.map fun h => h.finding).eq

/-- Only the kinds of qualified names matter to what an analysis finds. -/
theorem findingOf_congr {kindOf kindOf' : String → Option Kind}
    (h : ∀ scope name, kindOf (qualify scope name) = kindOf' (qualify scope name))
    (source : String) (d : DocumentId) (text : String) (tree : Tree) :
    findingOf source kindOf d text tree = findingOf source kindOf' d text tree :=
  findingOf_congr_of_inherits (fun _ name => h _ name) source d text

/-- Whether an analysis fails does not depend on kinds. -/
theorem exists_findingOf_eq_ok {kindOf : String → Option Kind} {source : String}
    {d : DocumentId} {text : String} {tree : Tree} {f : Finding}
    (h : findingOf source kindOf d text tree = .ok f) (kindOf' : String → Option Kind) :
    ∃ f', findingOf source kindOf' d text tree = .ok f' := by
  -- both end as the analysis without any kinds does
  have hnone : ∀ kinds : String → Option Kind, EndAlike Eq Finding.Improves
      (findingOf source (fun _ => none) d text tree) (findingOf source kinds d text tree) :=
    fun kinds => findingOf_improves (fun _ _ hkind => absurd hkind (by simp)) source d text tree
  obtain ⟨f₀, hf₀, -⟩ := (h ▸ hnone kindOf).exists_ok_eq
  obtain ⟨f', hf', -⟩ := (hf₀ ▸ hnone kindOf').exists_eq_ok
  exact ⟨f', hf'⟩

/-- Where an analysis finds something, its view has come to the end. -/
theorem exists_walk_of_findingOf {kindOf : String → Option Kind} {source : String}
    {d : DocumentId} {text : String} {tree : Tree} {f : Finding}
    (h : findingOf source kindOf d text tree = .ok f) :
    ∃ w, (View.start kindOf d text source).walk tree.occurrences = .ok w ∧ w.finding = f := by
  unfold findingOf at h
  cases hwalk : (View.start kindOf d text source).walk tree.occurrences with
  | error fault =>
    rw [hwalk] at h
    exact absurd h (by simp [Except.map])
  | ok w =>
    rw [hwalk] at h
    exact ⟨w, rfl, Except.ok.inj h⟩

end GrammarIndex
