import GrammarIndex.Proofs.Analysis.Scope
import GrammarIndex.Proofs.Analysis.View

/-!
# What leaves are resolved to

Every leaf of a grammar comes to one thing: a reference to a symbol, or a mistake.  Which one is
told by what the grammar declares, and for a name that it does not declare, by the kinds that
names in its parents have at the moment when the leaf is looked at.  An analysis goes over the
leaves in source order and records this for each, once, and nothing else in between.

## Main definitions

* `Grammar.Resolves` — what a leaf stands for, told by the declarations of its grammar.
* `Resolution` — what a pass makes of a leaf; `Grammar.ComesTo` — it is what it should be.
* `Grammar.Resolved` — a pass has gone over the bodies of a grammar.

## Main results

* `Scope.Declares.resolves_iff` — in a scope with what the grammar declares, a use means what
  the leaf stands for, and nothing else.
* `Pass.Shows.exists_resolutions` — a walk over bodies, leaf by leaf.
* `exists_resolved_of_analyze` — **every analysis resolves every leaf of every grammar.**
-/

namespace GrammarIndex

/-! ### What a leaf stands for -/

section

variable (g : Grammar) (kindOf : String → Option Kind)

/-- What a leaf of this name stands for in a grammar, where names have these kinds. -/
inductive Grammar.Resolves : Leaf → String → Meaning → Prop
  /-- A name stands for a parameter of its own rule. -/
  | parameter {rule : Rule} {token : Token} {name : String}
    (h : name ∈ rule.parameters.map (·.text)) :
    Resolves (.name rule token) name
      (.symbol (qualify (qualify g.name.text rule.name.text) name))
  /-- Or else it stands for a terminal of the grammar, at any depth. -/
  | terminal {rule : Rule} {token : Token} {name : String}
    (hparameter : name ∉ rule.parameters.map (·.text)) (h : g.HasTerminal name) :
    Resolves (.name rule token) name (.symbol (qualify g.name.text name))
  /-- Or else it stands for a variable of the grammar, wherever its rule stands. -/
  | nonterminal {rule : Rule} {token : Token} {name : String}
    (hparameter : name ∉ rule.parameters.map (·.text)) (hterminal : ¬ g.HasTerminal name)
    (h : g.HasVariable name) :
    Resolves (.name rule token) name (.symbol (qualify g.name.text name))
  /-- Or else it is inherited from the first parent in which it has a kind. -/
  | inherited {rule : Rule} {token : Token} {name : String}
    (hparameter : name ∉ rule.parameters.map (·.text)) (hterminal : ¬ g.HasTerminal name)
    (hnonterminal : ¬ g.HasVariable name) {before after : List Token} {parent : Token}
    (hparents : g.parents = before ++ parent :: after)
    (hbefore : ∀ p ∈ before, kindOf (qualify p.text name) = none)
    (h : kindOf (qualify parent.text name) ≠ none) :
    Resolves (.name rule token) name (.symbol (qualify parent.text name))
  /-- Or else it is missing, which is the mistake `hime.6`. -/
  | missing {rule : Rule} {token : Token} {name : String}
    (hparameter : name ∉ rule.parameters.map (·.text)) (hterminal : ¬ g.HasTerminal name)
    (hnonterminal : ¬ g.HasVariable name)
    (h : ∀ p ∈ g.parents, kindOf (qualify p.text name) = none) :
    Resolves (.name rule token) name (.mistake .missingSymbol)
  /-- A context switch names a context of the grammar, at any depth. -/
  | context {token : Token} {name : String} (h : g.HasContext name) :
    Resolves (.contextSwitch token) name (.symbol (qualify g.name.text name))
  /-- Or else the context is missing, which is the mistake `hime.5`. -/
  | missingContext {token : Token} {name : String} (h : ¬ g.HasContext name) :
    Resolves (.contextSwitch token) name (.mistake .missingContext)
  /-- An action is one of the grammar. -/
  | action {token : Token} {name : String} :
    Resolves (.action token) name (.symbol (qualify g.name.text name))
  /-- A virtual symbol is one of the grammar. -/
  | virtual {token : Token} {name : String} :
    Resolves (.virtual token) name (.symbol (qualify g.name.text name))
  /-- The start symbol is a variable of the grammar. -/
  | axiomValue {token : Token} {name : String} (h : g.HasVariable name) :
    Resolves (.axiomValue token) name (.symbol (qualify g.name.text name))
  /-- Or else the option is the mistake `hime.1`. -/
  | invalidAxiom {token : Token} {name : String} (h : ¬ g.HasVariable name) :
    Resolves (.axiomValue token) name (.mistake .invalidAxiom)
  /-- The separator is a terminal of the grammar, at any depth. -/
  | separatorValue {token : Token} {name : String} (h : g.HasTerminal name) :
    Resolves (.separatorValue token) name (.symbol (qualify g.name.text name))
  /-- Or else the option is the mistake `hime.2`. -/
  | invalidSeparator {token : Token} {name : String} (h : ¬ g.HasTerminal name) :
    Resolves (.separatorValue token) name (.mistake .invalidSeparator)

end

namespace Scope.Declares

variable {scope : Scope} {g : Grammar} {kindOf : String → Option Kind}

/-- The first parent that knows a name is the first one in the grammar. -/
theorem importer?_eq (h : scope.Declares g) (name : String) :
    scope.importer? kindOf name (fun _ => true) =
      (g.parents.find? fun p => (kindOf (qualify p.text name)).isSome).map (·.text) := by
  rw [importer?_eq_find? h.imports]
  refine congrArg (Option.map _) (congrArg (List.find? · g.parents) ?_)
  funext p
  cases kindOf (qualify p.text name) <;> rfl

/-- What a leaf stands for is what a use of it means. -/
theorem meaning_eq_of_resolves (h : scope.Declares g) {l : Leaf} {name : String} {m : Meaning}
    (hl : g.Resolves kindOf l name m) : scope.meaning kindOf g.name.text l.use name = m := by
  cases hl with
  | parameter hparameter => exact if_pos hparameter
  -- each rule of resolution is one branch of the program: what it asks decides the conditions
  | terminal hparameter hterminal =>
    simp only [Leaf.use, Rule.bareUse, meaning]
    rw [if_neg hparameter, if_pos ((h.terminals _).mpr hterminal)]
  | nonterminal hparameter hterminal hnonterminal =>
    simp only [Leaf.use, Rule.bareUse, meaning]
    rw [if_neg hparameter, if_neg ((h.terminals _).not.mpr hterminal),
      if_pos ((h.nonterminals _).mpr hnonterminal)]
  | @inherited _ _ _ hparameter hterminal hnonterminal before after parent hparents hbefore
      hkind =>
    -- the first parent that knows the name is the one the search stops at
    have hfind : g.parents.find? (fun p => (kindOf (qualify p.text name)).isSome) =
        some parent := by
      apply List.find?_eq_some_iff_append.mpr
      refine ⟨Option.isSome_iff_ne_none.mpr hkind, before, after, hparents, ?_⟩
      intro p hp
      simp [hbefore p hp]
    simp only [Leaf.use, Rule.bareUse, meaning]
    rw [if_neg hparameter, if_neg ((h.terminals _).not.mpr hterminal),
      if_neg ((h.nonterminals _).not.mpr hnonterminal), importedName?_eq, h.importer?_eq, hfind]
    rfl
  | missing hparameter hterminal hnonterminal hmissing =>
    have hfind : g.parents.find? (fun p => (kindOf (qualify p.text name)).isSome) = none := by
      apply List.find?_eq_none.mpr
      intro p hp
      simp [hmissing p hp]
    simp only [Leaf.use, Rule.bareUse, meaning]
    rw [if_neg hparameter, if_neg ((h.terminals _).not.mpr hterminal),
      if_neg ((h.nonterminals _).not.mpr hnonterminal), importedName?_eq, h.importer?_eq, hfind]
    rfl
  | context hcontext => exact if_pos ((h.contexts _).mpr hcontext)
  | missingContext hcontext => exact if_neg ((h.contexts _).not.mpr hcontext)
  | action => rfl
  | virtual => rfl
  | axiomValue hnonterminal => exact if_pos ((h.nonterminals _).mpr hnonterminal)
  | invalidAxiom hnonterminal => exact if_neg ((h.nonterminals _).not.mpr hnonterminal)
  | separatorValue hterminal => exact if_pos ((h.terminals _).mpr hterminal)
  | invalidSeparator hterminal => exact if_neg ((h.terminals _).not.mpr hterminal)

end Scope.Declares

/-- Every leaf stands for something. -/
theorem Grammar.exists_resolves (g : Grammar) (kindOf : String → Option Kind) (l : Leaf)
    (name : String) : ∃ m, g.Resolves kindOf l name m := by
  cases l with
  | name rule token =>
    -- from the rule outwards
    by_cases hparameter : name ∈ rule.parameters.map (·.text)
    · exact ⟨_, .parameter hparameter⟩
    by_cases hterminal : g.HasTerminal name
    · exact ⟨_, .terminal hparameter hterminal⟩
    by_cases hnonterminal : g.HasVariable name
    · exact ⟨_, .nonterminal hparameter hterminal hnonterminal⟩
    cases hfind : g.parents.find? fun p => (kindOf (qualify p.text name)).isSome with
    | some parent =>
      obtain ⟨hkind, before, after, hparents, hbefore⟩ := List.find?_eq_some_iff_append.mp hfind
      have hnone : ∀ p ∈ before, kindOf (qualify p.text name) = none := by
        intro p hp
        simpa using hbefore p hp
      exact ⟨_, .inherited hparameter hterminal hnonterminal hparents hnone
        (Option.isSome_iff_ne_none.mp hkind)⟩
    | none =>
      have hnone : ∀ p ∈ g.parents, kindOf (qualify p.text name) = none := by
        intro p hp
        simpa using List.find?_eq_none.mp hfind p hp
      exact ⟨_, .missing hparameter hterminal hnonterminal hnone⟩
  | contextSwitch token =>
    by_cases h : g.HasContext name
    · exact ⟨_, .context h⟩
    · exact ⟨_, .missingContext h⟩
  | action token => exact ⟨_, .action⟩
  | virtual token => exact ⟨_, .virtual⟩
  | axiomValue token =>
    by_cases h : g.HasVariable name
    · exact ⟨_, .axiomValue h⟩
    · exact ⟨_, .invalidAxiom h⟩
  | separatorValue token =>
    by_cases h : g.HasTerminal name
    · exact ⟨_, .separatorValue h⟩
    · exact ⟨_, .invalidSeparator h⟩

/-- **A use means what the leaf stands for**, and nothing else, in a scope that has what the
grammar declares. -/
theorem Scope.Declares.resolves_iff {scope : Scope} {g : Grammar} (h : scope.Declares g)
    {kindOf : String → Option Kind} {l : Leaf} {name : String} {m : Meaning} :
    g.Resolves kindOf l name m ↔ m = scope.meaning kindOf g.name.text l.use name := by
  constructor
  · intro hl
    exact (h.meaning_eq_of_resolves hl).symm
  · rintro rfl
    obtain ⟨m, hm⟩ := g.exists_resolves kindOf l name
    rw [h.meaning_eq_of_resolves hm]
    exact hm

/-! ### What a pass makes of a leaf -/

namespace Meaning

/-- The references that a use of this meaning adds. -/
def references (m : Meaning) (range : Range) : List NamedMention :=
  match m with
  | symbol qualified => [⟨qualified, range⟩]
  | mistake _ => []

/-- The diagnostics that a use of this meaning adds: for a mistake one, at the range of the use,
in the document and under the source that are being looked at. -/
def diagnostics (m : Meaning) (d : DocumentId) (source name : String) (range : Range) :
    List Diagnostic :=
  match m with
  | symbol _ => []
  | mistake m => [{
      document := d
      range := range
      severity := m.severity
      mistake := m
      source := source
      message := m.message name }]

end Meaning

namespace Role

/-- The qualified name that an occurrence of this name defines. -/
def defined? (role : Role) (grammar name : String) : Option String :=
  match role.act grammar name with
  | .define q _ => some q
  | .use _ => none

/-- What an occurrence of this name means, if it is a use. -/
def meaning? (role : Role) (scope : Scope) (kindOf : String → Option Kind)
    (grammar name : String) : Option Meaning :=
  match role with
  | .use u => some (scope.meaning kindOf grammar u name)
  | _ => none

end Role

/-- What a pass makes of a leaf. -/
structure Resolution where
  /-- The pass as it came to the leaf. -/
  moment : Pass
  /-- The name that the leaf carries. -/
  name : String
  /-- The range of the leaf. -/
  range : Range
  /-- What the leaf is taken for. -/
  meaning : Meaning

namespace Resolution

/-- The reference that is recorded, if the leaf is no mistake. -/
def references (x : Resolution) : List NamedMention := x.meaning.references x.range

/-- The diagnostic that is recorded, if the leaf is a mistake. -/
def diagnostics (d : DocumentId) (source : String) (x : Resolution) : List Diagnostic :=
  x.meaning.diagnostics d source x.name x.range

end Resolution

/-- A pass over these occurrences in the text makes of a leaf what it should, where the leaf
comes with the number of those before it: it came to the leaf after as many uses, it has read
the name and found the range, and it takes the leaf for what it stands for at that moment. -/
structure Grammar.ComesTo (g : Grammar) (text : String) (p : Pass) (os : List Occurrence)
    (l : Leaf × Nat) (x : Resolution) : Prop where
  /-- The pass is the one that has gone over whatever comes before the leaf. -/
  moment : ∃ earlier later, os = earlier ++ l.1.occurrence g.name.text :: later ∧
    earlier.countP (·.role.isUse) = l.2 ∧ p.walk earlier = .ok x.moment
  /-- The name is that of the leaf. -/
  name : l.1.name? = some x.name
  /-- The range is that of its token. -/
  range : (LineIndex.ofText text).range? l.1.token.span = some x.range
  /-- The meaning is the one that the leaf has then. -/
  meaning : ∀ m, g.Resolves x.moment.registry.kindNamed? l.1 x.name m ↔ m = x.meaning

/-- A view goes on to another, with these resolutions recorded and nothing else. -/
structure View.Gains (v : View) (xs : List Resolution) (w : View) : Prop where
  /-- The lines are the same. -/
  lines : w.lines = v.lines
  /-- The scope is the same. -/
  scope : w.scope = v.scope
  /-- The references of the resolutions are added. -/
  references : w.references = v.references ++ xs.flatMap (·.references)
  /-- Their diagnostics are added. -/
  log : w.log =
    { v.log with
      entries := v.log.entries ++ xs.flatMap (·.diagnostics v.log.document v.log.source) }

namespace View

variable {v w : View}

theorem Gains.refl (v : View) : v.Gains [] v := ⟨rfl, rfl, by simp, by simp⟩

theorem Gains.trans {u : View} {xs ys : List Resolution} (h : u.Gains xs v) (h' : v.Gains ys w) :
    u.Gains (xs ++ ys) w where
  lines := h'.lines.trans h.lines
  scope := h'.scope.trans h.scope
  references := by rw [h'.references, h.references, List.flatMap_append, List.append_assoc]
  log := by rw [h'.log, h.log]; simp

@[simp] theorem references_announce (v : View) (suggestion : Option (String × Kind)) :
    (v.announce suggestion).references = v.references := by
  cases suggestion <;> rfl

theorem references_recordMeaning (v : View) (m : Meaning) (name : String) (range : Range) :
    (v.recordMeaning m name range).references = v.references ++ m.references range := by
  cases m <;> simp [recordMeaning, Meaning.references]

theorem log_recordMeaning (v : View) (m : Meaning) (name : String) (range : Range) :
    (v.recordMeaning m name range).log =
      { v.log with
        entries := v.log.entries ++ m.diagnostics v.log.document v.log.source name range } := by
  cases m with
  | symbol q => simp [recordMeaning, Meaning.diagnostics]
  | mistake m => rfl

/-- What a use of a name means is not changed by what the use declares. -/
theorem meaning_announce (v : View) (grammar name : String) (u : Use) :
    (v.announce (u.suggestion? grammar name)).scope.meaning
        (v.announce (u.suggestion? grammar name)).kindOf grammar u name =
      v.scope.meaning v.kindOf grammar u name := by
  cases u <;> rfl

/-- An occurrence defines what it declares. -/
theorem definitions_record (v : View) (grammar : String) (role : Role) (name : String)
    (range : Range) :
    (v.record grammar role name range).definitions =
      v.definitions ++ (role.defined? grammar name).toList.map (⟨·, range⟩) := by
  unfold record Role.defined?
  cases role.act grammar name with
  | define q kind => rfl
  | use u =>
    show (v.recordUse grammar u name range).definitions = v.definitions ++ []
    rw [recordUse, List.append_nil]
    cases Scope.meaning _ _ _ _ _ <;> cases u.suggestion? grammar name <;> rfl

/-- A use references what it means. -/
theorem references_record (v : View) (grammar : String) (role : Role) (name : String)
    (range : Range) :
    (v.record grammar role name range).references =
      v.references ++
        (role.meaning? v.scope v.kindOf grammar name).toList.flatMap (·.references range) := by
  cases role with
  | use u =>
    show (v.recordUse grammar u name range).references = _
    rw [recordUse, references_recordMeaning, references_announce, meaning_announce]
    simp [Role.meaning?]
  | _ => exact (List.append_nil _).symm

/-- A use that means nothing is a mistake. -/
theorem log_record (v : View) (grammar : String) (role : Role) (name : String) (range : Range) :
    (v.record grammar role name range).log =
      { v.log with
        entries := v.log.entries ++
          (role.meaning? v.scope v.kindOf grammar name).toList.flatMap
            (·.diagnostics v.log.document v.log.source name range) } := by
  cases role with
  | use u =>
    show (v.recordUse grammar u name range).log = _
    rw [recordUse, log_recordMeaning, log_announce, meaning_announce]
    simp [Role.meaning?]
  | _ => exact congrArg (fun es => { v.log with entries := es }) (List.append_nil _).symm

/-- A parameter is recorded as no resolution. -/
theorem gains_record_parameter (v : View) (grammar rule name : String) (range : Range) :
    v.Gains [] (v.record grammar (.parameter rule) name range) :=
  ⟨lines_record .., scope_record .., references_record .., log_record ..⟩

/-- A leaf is recorded as what it means. -/
theorem gains_record_use (v : View) (grammar : String) (l : Leaf) {x : Resolution}
    (hx : x.meaning = v.scope.meaning v.kindOf grammar l.use x.name) :
    v.Gains [x] (v.record grammar (.use l.use) x.name x.range) where
  lines := lines_record ..
  scope := by
    rw [scope_record]
    cases l <;> rfl
  references := by
    rw [references_record, Role.meaning?, ← hx]
    rfl
  log := by
    rw [log_record, Role.meaning?, ← hx]
    rfl

end View

/-! ### A walk over bodies -/

/-- A pass that goes on has done so at the first occurrence, and its view as well. -/
theorem Pass.Shows.exists_first {p q : Pass} {v : View} (h : p.Shows v) {o : Occurrence}
    {os : List Occurrence} (hwalk : p.walk (o :: os) = .ok q) :
    ∃ p' name range, p.walk [o] = .ok p' ∧ o.name? = some name ∧
      v.lines.range? o.token.span = some range ∧
      p'.Shows (v.record o.grammar o.role name range) ∧ p'.walk os = .ok q := by
  obtain ⟨p', hfirst, hrest⟩ : ∃ p', p.walk [o] = .ok p' ∧ p'.walk os = .ok q :=
    exists_of_walk_append hwalk
  obtain ⟨v', hv', hshows⟩ := h.exists_walk hfirst
  obtain ⟨name, range, hname, hrange, hrecord⟩ := View.exists_of_walk_cons hv'
  obtain rfl := Except.ok.inj hrecord
  exact ⟨p', name, range, hfirst, hname, hrange, hshows, hrest⟩

/-- **A walk over bodies comes to what it should at every leaf**, and records that and nothing
else. -/
theorem Pass.Shows.exists_resolutions {g : Grammar} {text : String} {first p q : Pass} {v : View}
    {done os : List Occurrence} {ls : List Leaf} (h : p.Shows v)
    (hdone : first.walk done = .ok p) (hscope : v.scope.Declares g)
    (hlines : v.lines = .ofText text)
    (huses : os.filter (·.role.isUse) = ls.map (·.occurrence g.name.text))
    (hothers : ∀ o ∈ os, o.role.isUse = false → ∃ rule, o.role = .parameter rule)
    (hwalk : p.walk os = .ok q) :
    ∃ w xs, q.Shows w ∧ v.Gains xs w ∧
      List.Forall₂ (g.ComesTo text first (done ++ os))
        (ls.zipIdx (done.countP (·.role.isUse))) xs := by
  -- on the occurrences that are left; `done` grows by one, and the scope stays what it was
  induction os generalizing done p v ls with
  | nil =>
    obtain rfl := List.map_eq_nil_iff.mp huses.symm
    obtain rfl : p = q := Except.ok.inj hwalk
    exact ⟨v, [], h, .refl v, .nil⟩
  | cons o os ih =>
    -- the one at hand is looked at with the registry that `p` has now
    obtain ⟨p', name, range, hfirst, hname, hrange, hshows, hrest⟩ := h.exists_first hwalk
    have hdone' : first.walk (done ++ [o]) = .ok p' := by
      rw [walk_append, hdone]
      exact hfirst
    have happend : done ++ o :: os = (done ++ [o]) ++ os := by simp
    have hothers' : ∀ o' ∈ os, o'.role.isUse = false → ∃ rule, o'.role = .parameter rule :=
      fun o' ho' => hothers o' (List.mem_cons_of_mem o ho')
    cases huse : o.role.isUse with
    | false =>
      -- a parameter, which no leaf stands for
      obtain ⟨rule, hrole⟩ := hothers o List.mem_cons_self huse
      rw [List.filter_cons, if_neg (by simp [huse])] at huses
      have hgains : v.Gains [] (v.record o.grammar o.role name range) := by
        rw [hrole]
        exact v.gains_record_parameter o.grammar rule name range
      -- nothing is gained, and the count of the leaves stays
      obtain ⟨w, xs, hw, hxs, hleaves⟩ := ih hshows hdone' (hgains.scope.symm ▸ hscope)
        (hgains.lines.trans hlines) huses hothers' hrest
      have hcount : (done ++ [o]).countP (·.role.isUse) = done.countP (·.role.isUse) := by
        simp [List.countP_append, huse]
      refine ⟨w, xs, hw, hgains.trans hxs, ?_⟩
      rw [happend, ← hcount]
      exact hleaves
    | true =>
      -- the next leaf
      rw [List.filter_cons, if_pos huse] at huses
      obtain ⟨l, ls, rfl, rfl, hleft⟩ := List.map_eq_cons_iff.mp huses.symm
      -- what it comes to is read off the scope, before anything is recorded
      let x : Resolution := ⟨p, name, range, v.scope.meaning v.kindOf g.name.text l.use name⟩
      have hgains : v.Gains [x] (v.record g.name.text (.use l.use) name range) :=
        v.gains_record_use g.name.text l rfl
      obtain ⟨w, xs, hw, hxs, hleaves⟩ := ih hshows hdone' (hgains.scope.symm ▸ hscope)
        (hgains.lines.trans hlines) hleft.symm hothers' hrest
      have hcount : (done ++ [l.occurrence g.name.text]).countP (·.role.isUse) =
          done.countP (·.role.isUse) + 1 := by
        simp [List.countP_append, Leaf.occurrence, Role.isUse]
      rw [hcount, ← happend] at hleaves
      -- the walk to this leaf, then its name, its range and its meaning
      refine ⟨w, x :: xs, hw, hgains.trans hxs, .cons ⟨⟨done, os, rfl, rfl, hdone⟩, ?_, ?_, ?_⟩
        hleaves⟩
      · rw [← hname]
        cases l <;> rfl
      · rw [← hlines]
        exact hrange
      · -- the scope gives one meaning, and the declarations give the same
        intro m
        show g.Resolves p.registry.kindNamed? l name m ↔ _
        rw [h.kindNamed?]
        exact hscope.resolves_iff

/-! ### Analyses -/

/-- A pass over the bodies of a grammar has resolved every leaf, once and in order, and has
recorded the resolutions and nothing else.  The symbols are those of the registry `r`. -/
structure Grammar.Resolved (g : Grammar) (source : String) (d : DocumentId) (text : String)
    (r : Registry) (p q : Pass) (xs : List Resolution) : Prop where
  /-- The pass has gone over the bodies. -/
  walk : p.walk g.bodies = .ok q
  /-- There is one resolution for every leaf. -/
  leaves : List.Forall₂ (g.ComesTo text p g.bodies) g.leaves.zipIdx xs
  /-- The references of the resolutions were recorded. -/
  references : ∃ refs, q.references = p.references ++ refs ∧
    List.Forall₂ r.Reads refs (xs.flatMap (·.references))
  /-- The diagnostics of the resolutions were recorded. -/
  diagnostics : q.log.entries = p.log.entries ++ xs.flatMap (·.diagnostics d source)

/-- A pass is seen through a view all along, and its scope depends on the occurrences alone. -/
theorem exists_view_of_walk {source text : String} {d : DocumentId} {r₀ : Registry}
    (hr₀ : r₀.WellFormed) {p : Pass} {os : List Occurrence}
    (hp : (analysisStart source r₀ d text).walk os = .ok p) :
    ∃ v, p.Shows v ∧ v.scope = os.foldl Scope.meet .empty ∧ v.lines = .ofText text ∧
      v.log.document = d ∧ v.log.source = source := by
  obtain ⟨v, hv, hshows⟩ := (Pass.Shows.start hr₀ source d text).exists_walk hp
  have hplay := Pass.eq_play_of_walk hp
  obtain ⟨entries, hlog⟩ := (analysisStart source r₀ d text).exists_log_play
    ((analysisStart source r₀ d text).walkMoves os)
  rw [← hplay, hshows.log] at hlog
  refine ⟨v, hshows, View.scope_walk hv, ?_, ?_, ?_⟩
  · rw [← hshows.lines, hplay, Pass.lines_play]
    rfl
  · rw [hlog]
    rfl
  · rw [hlog]
    rfl

/-- Where the bodies of a grammar begin, the scope has what the grammar declares, whatever came
before. -/
theorem exists_view_of_walk_headings {source text : String} {d : DocumentId} {r₀ : Registry}
    (hr₀ : r₀.WellFormed) {g : Grammar} {p : Pass} {before : List Occurrence}
    (hp : (analysisStart source r₀ d text).walk
      (before ++ ⟨g.name.text, .grammar, g.name⟩ :: g.headings) = .ok p) :
    ∃ v, p.Shows v ∧ v.scope.Declares g ∧ v.lines = .ofText text ∧ v.log.document = d ∧
      v.log.source = source := by
  obtain ⟨v, hshows, hscope, hlines, hlog⟩ := exists_view_of_walk hr₀ hp
  refine ⟨v, hshows, ?_, hlines, hlog⟩
  rw [hscope, List.foldl_append]
  exact g.declares_headings _

/-- **Every analysis resolves every leaf of every grammar.**  After any history, let an analysis
succeed, and let a grammar stand in its tree.  Then the analysis comes to the bodies of the
grammar and goes over its leaves in source order; each comes to one thing, which is what the
leaf stands for by the declarations of its grammar and by the kinds that names have at that
moment.  The references and diagnostics of the leaves are recorded in this order with nothing
else in between, and they stay in the result. -/
theorem exists_resolved_of_analyze {history : List Registry.Event} {source text : String}
    {d : DocumentId} {tree : Tree} {a : Analysis} {r : Registry}
    (h : analyze source (Registry.after history) d text tree = (.ok a, r))
    {before later : List Grammar} {g : Grammar} (hg : tree.grammars = before ++ g :: later) :
    ∃ p q xs,
      (analysisStart source (Registry.after history) d text).walk
        (before.flatMap (·.occurrences) ++ ⟨g.name.text, .grammar, g.name⟩ :: g.headings) =
          .ok p ∧
      g.Resolved source d text r p q xs ∧
      q.references <+: a.references ∧ q.log.entries <+: a.diagnostics := by
  -- cut the walk where the bodies of the grammar start and where they end
  have hoccurrences : tree.occurrences =
      (before.flatMap (·.occurrences) ++ ⟨g.name.text, .grammar, g.name⟩ :: g.headings) ++
        (g.bodies ++ later.flatMap (·.occurrences)) := by
    rw [Tree.occurrences, hg, List.flatMap_append, List.flatMap_cons, g.occurrences_eq]
    simp
  obtain ⟨last, hlast, rfl, rfl⟩ := exists_walk_of_analyze h
  rw [hoccurrences] at hlast
  obtain ⟨p, hp, hrest⟩ := Pass.exists_of_walk_append hlast
  obtain ⟨q, hq, hlater⟩ := Pass.exists_of_walk_append hrest
  -- the headings have filled the scope: from here on it declares the grammar
  obtain ⟨v, hshows, hscope, hlines, hdocument, hsource⟩ :=
    exists_view_of_walk_headings (Registry.wellFormed_after history) hp
  obtain ⟨w, xs, hw, hgains, hleaves⟩ := hshows.exists_resolutions (Pass.walk_nil p) hscope hlines
    g.filter_bodies (fun o ho => g.exists_parameter_of_mem_bodies ho) hq
  have hlast_eq := Pass.eq_play_of_walk hlater
  refine ⟨p, q, xs, hp, ⟨hq, hleaves, ?_, ?_⟩, ?_, ?_⟩
  · -- the references: those of the bodies come after those of the headings
    obtain ⟨refs, hrefs⟩ : p.references <+: q.references := by
      rw [Pass.eq_play_of_walk hq]
      exact p.references_isPrefix_play _
    have hreads := hw.references
    rw [← hrefs, hgains.references] at hreads
    have hkeeps : q.registry.Keeps last.registry := by
      rw [hlast_eq]
      exact q.keeps_play _
    exact ⟨refs, hrefs.symm,
      hkeeps.forall₂_reads (forall₂_of_append hshows.references.length_eq hreads)⟩
  · -- the log: what the leaves have added comes after what was there
    rw [hw.log, hgains.log, hshows.log, hdocument, hsource]
  · rw [hlast_eq]
    exact q.references_isPrefix_play _
  · obtain ⟨entries, hentries⟩ := q.exists_log_play (q.walkMoves (later.flatMap (·.occurrences)))
    rw [← hlast_eq] at hentries
    refine ⟨entries, ?_⟩
    show _ = last.log.entries
    rw [hentries]

/-- The text of a document with two grammars. -/
def leavesText : String :=
  "F[U] G:E,B[C[T]] S<P>[P T S X U #C[T] #D[@A] S<\"v\">] Axiom \"S\" Separator \"W\""

/-- The first grammar, with a terminal `U`. -/
def leavesBefore : Grammar :=
  ⟨⟨"F", ⟨0, 1⟩⟩, [], [], [.terminal ⟨"U", ⟨2, 3⟩⟩ (.atom ⟨"u", ⟨2, 3⟩⟩)], []⟩

/-- The second grammar, with leaves of every sort. -/
def leavesGrammar : Grammar where
  name := ⟨"G", ⟨5, 6⟩⟩
  parents := [⟨"E", ⟨7, 8⟩⟩, ⟨"B", ⟨9, 10⟩⟩]
  options := [⟨⟨"Axiom", ⟨53, 58⟩⟩, ⟨"\"S\"", ⟨59, 62⟩⟩⟩,
    ⟨⟨"Separator", ⟨63, 72⟩⟩, ⟨"\"W\"", ⟨73, 76⟩⟩⟩]
  terminals := [.context ⟨"C", ⟨11, 12⟩⟩ [.terminal ⟨"T", ⟨13, 14⟩⟩ (.atom ⟨"t", ⟨13, 14⟩⟩)]]
  rules := [⟨⟨"S", ⟨17, 18⟩⟩, [⟨"P", ⟨19, 20⟩⟩], .sequence [.name ⟨"P", ⟨22, 23⟩⟩,
    .name ⟨"T", ⟨24, 25⟩⟩, .name ⟨"S", ⟨26, 27⟩⟩, .name ⟨"X", ⟨28, 29⟩⟩, .name ⟨"U", ⟨30, 31⟩⟩,
    .contextSwitch ⟨"C", ⟨33, 34⟩⟩ (.name ⟨"T", ⟨35, 36⟩⟩),
    .contextSwitch ⟨"D", ⟨39, 40⟩⟩ (.action ⟨"A", ⟨42, 43⟩⟩),
    .call ⟨"S", ⟨45, 46⟩⟩ [.virtual ⟨"\"v\"", ⟨47, 50⟩⟩]]⟩]

/-- What is wrong in it. -/
def leavesDiagnostics : List Diagnostic := [
  ⟨⟨0⟩, ⟨⟨0, 30⟩, ⟨0, 31⟩⟩, .warning, .missingSymbol, "hime",
    "Missing definition for referenced symbol 'U'."⟩,
  ⟨⟨0⟩, ⟨⟨0, 39⟩, ⟨0, 40⟩⟩, .warning, .missingContext, "hime",
    "Missing definition for referenced lexical context 'D'."⟩,
  ⟨⟨0⟩, ⟨⟨0, 73⟩, ⟨0, 76⟩⟩, .warning, .invalidSeparator, "hime",
    "Separator terminal 'W' is not a terminal defined in this grammar."⟩]

/-- Another document has a variable `X` in `B`, the second parent, which `G` inherits.  The
terminal `U` of the grammar before is missing in `G`, as are the context `D` and the separator. -/
theorem exists_resolved_of_analyze_leaves :
    let history := [Registry.Event.analysis "hime" ⟨1⟩ "B[X]"
      (.ok ⟨[⟨⟨"B", ⟨0, 1⟩⟩, [], [], [], [⟨⟨"X", ⟨2, 3⟩⟩, [], .literal ⟨"x", ⟨2, 3⟩⟩⟩]⟩]⟩)]
    let tree : Tree := ⟨[leavesBefore, leavesGrammar]⟩
    ∃ a r, analyze "hime" (Registry.after history) ⟨0⟩ leavesText tree = (.ok a, r) ∧
      tree.grammars = [leavesBefore] ++ leavesGrammar :: [] ∧
      a.references.length = 12 ∧ a.diagnostics = leavesDiagnostics ∧
      a.diagnostics.map (·.mistake.code) = ["hime.6", "hime.5", "hime.2"] ∧
      ∃ p q xs,
        (analysisStart "hime" (Registry.after history) ⟨0⟩ leavesText).walk
          ([leavesBefore].flatMap (·.occurrences) ++
            ⟨leavesGrammar.name.text, .grammar, leavesGrammar.name⟩ :: leavesGrammar.headings) =
            .ok p ∧
        leavesGrammar.Resolved "hime" ⟨0⟩ leavesText r p q xs ∧
        q.references <+: a.references ∧ q.log.entries <+: a.diagnostics := by
  intro history tree
  have hsome : (analyze "hime" (Registry.after history) ⟨0⟩ leavesText tree).1.toOption.any
      (fun a => a.references.length = 12 ∧ a.diagnostics = leavesDiagnostics) = true := by
    decide +kernel
  obtain ⟨⟨answer, r⟩, houtcome⟩ :
    ∃ outcome, analyze "hime" (Registry.after history) ⟨0⟩ leavesText tree = outcome := ⟨_, rfl⟩
  rw [houtcome] at hsome
  cases answer with
  | error fault => exact absurd hsome (by simp [Except.toOption])
  | ok a =>
    obtain ⟨hreferences, hdiagnostics⟩ : a.references.length = 12 ∧
        a.diagnostics = leavesDiagnostics := of_decide_eq_true hsome
    have hcodes : a.diagnostics.map (·.mistake.code) = ["hime.6", "hime.5", "hime.2"] := by
      rw [hdiagnostics]
      rfl
    have hg : tree.grammars = [leavesBefore] ++ leavesGrammar :: [] := rfl
    exact ⟨a, r, houtcome, hg, hreferences, hdiagnostics, hcodes,
      exists_resolved_of_analyze houtcome hg⟩

end GrammarIndex
