import GrammarIndex.Proofs.Analysis.Resolution
import GrammarIndex.Proofs.Grammar.Declarations

/-!
# What definitions of terminals refer to

The terminals section is looked at once, from its beginning to its end.  A name in a definition
may stand for a terminal that is declared further up, whichever context holds it, and for a
terminal of a parent otherwise; a terminal that is declared further down is not known yet, and
a terminal never stands for itself.

## Main definitions

* `Grammar.ResolvesLexical` — what a name in a definition stands for.
* `Grammar.ComesToLexical` — what a pass makes of such a name is what it should be.
* `Grammar.LexiconResolved` — a pass has gone over the terminals section.

## Main results

* `Scope.Lists.resolvesLexical_iff` — in a scope with the terminals that were declared so far, a
  use means what the name stands for, and nothing else.
* `Pass.Shows.exists_lexicon` — a walk over the section, declaration by declaration.
* `exists_lexicon_of_analyze` — **every analysis resolves every definition in one pass.**
-/

namespace GrammarIndex

/-! ### What a name in a definition stands for -/

section

variable (g : Grammar) (kindOf : String → Option Kind) (l : LexicalLeaf)

/-- What a name in the definition of a terminal stands for, where names have these kinds. -/
inductive Grammar.ResolvesLexical : Meaning → Prop
  /-- The terminal itself is the mistake `hime.3`. -/
  | own (h : l.token.text = l.owner.text) : ResolvesLexical (.mistake .selfReferentialTerminal)
  /-- Or else the name stands for a terminal of the grammar that is declared by then. -/
  | terminal (hown : l.token.text ≠ l.owner.text) (h : l.token.text ∈ l.terminals) :
    ResolvesLexical (.symbol (qualify g.name.text l.token.text))
  /-- Or else it is inherited from the first parent in which it is a terminal. -/
  | inherited (hown : l.token.text ≠ l.owner.text) (hterminal : l.token.text ∉ l.terminals)
    {before after : List Token} {parent : Token} (hparents : g.parents = before ++ parent :: after)
    (hbefore : ∀ p ∈ before, kindOf (qualify p.text l.token.text) ≠ some .terminal)
    (h : kindOf (qualify parent.text l.token.text) = some .terminal) :
    ResolvesLexical (.symbol (qualify parent.text l.token.text))
  /-- Or else it is missing, which is the mistake `hime.4`. -/
  | missing (hown : l.token.text ≠ l.owner.text) (hterminal : l.token.text ∉ l.terminals)
    (h : ∀ p ∈ g.parents, kindOf (qualify p.text l.token.text) ≠ some .terminal) :
    ResolvesLexical (.mistake .missingTerminal)

end

/-- The scope has the parents of the grammar, and these terminals. -/
structure Scope.Lists (scope : Scope) (g : Grammar) (terminals : List String) : Prop where
  /-- The parents, in the order of their first mention. -/
  imports : scope.imports = (g.parents.map (·.text)).eraseDups
  /-- The terminals, in any order. -/
  terminals : ∀ name, name ∈ scope.terminals ↔ name ∈ terminals

namespace Scope.Lists

variable {scope : Scope} {g : Grammar} {kindOf : String → Option Kind} {l : LexicalLeaf}
  {terminals : List String}

/-- The first parent with a terminal of a name is the first one in the grammar. -/
theorem importer?_eq (h : scope.Lists g terminals) (name : String) :
    scope.importer? kindOf name (· = .terminal) =
      (g.parents.find? fun p => kindOf (qualify p.text name) = some .terminal).map (·.text) := by
  rw [importer?_eq_find? h.imports]
  refine congrArg (Option.map _) (congrArg (List.find? · g.parents) ?_)
  funext p
  cases kindOf (qualify p.text name) <;> simp

/-- What a name stands for is what a use of it means. -/
theorem meaning_eq_of_resolves (h : scope.Lists g l.terminals) {m : Meaning}
    (hl : g.ResolvesLexical kindOf l m) :
    scope.meaning kindOf g.name.text (.lexical l.owner.text) l.token.text = m := by
  cases hl with
  | own hown => exact if_pos hown
  | terminal hown hterminal =>
    simp only [meaning]
    rw [if_neg hown, if_pos ((h.terminals _).mpr hterminal)]
  | @inherited hown hterminal before after parent hparents hbefore hkind =>
    -- the search for a parent stops at the first that has such a terminal
    have hfind : g.parents.find? (fun p => kindOf (qualify p.text l.token.text) = some .terminal) =
        some parent := by
      apply List.find?_eq_some_iff_append.mpr
      refine ⟨decide_eq_true hkind, before, after, hparents, ?_⟩
      intro p hp
      simp [hbefore p hp]
    simp only [meaning]
    rw [if_neg hown, if_neg ((h.terminals _).not.mpr hterminal), importedName?_eq, h.importer?_eq,
      hfind]
    rfl
  | missing hown hterminal hmissing =>
    -- no parent has such a terminal, and the search comes to nothing
    have hfind : g.parents.find? (fun p => kindOf (qualify p.text l.token.text) = some .terminal) =
        none := by
      apply List.find?_eq_none.mpr
      intro p hp
      simp [hmissing p hp]
    simp only [meaning]
    rw [if_neg hown, if_neg ((h.terminals _).not.mpr hterminal), importedName?_eq, h.importer?_eq,
      hfind]
    rfl

end Scope.Lists

/-- Every name in a definition stands for something. -/
theorem Grammar.exists_resolvesLexical (g : Grammar) (kindOf : String → Option Kind)
    (l : LexicalLeaf) : ∃ m, g.ResolvesLexical kindOf l m := by
  by_cases hown : l.token.text = l.owner.text
  · exact ⟨_, .own hown⟩
  by_cases hterminal : l.token.text ∈ l.terminals
  · exact ⟨_, .terminal hown hterminal⟩
  cases hfind : g.parents.find? fun p =>
    kindOf (qualify p.text l.token.text) = some .terminal with
  | some parent =>
    obtain ⟨hkind, before, after, hparents, hbefore⟩ := List.find?_eq_some_iff_append.mp hfind
    refine ⟨_, .inherited hown hterminal hparents ?_ (of_decide_eq_true hkind)⟩
    intro p hp
    simpa using hbefore p hp
  | none =>
    refine ⟨_, .missing hown hterminal ?_⟩
    intro p hp
    simpa using List.find?_eq_none.mp hfind p hp

/-- **A use means what the name stands for**, and nothing else, in a scope that has the terminals
which are declared by then. -/
theorem Scope.Lists.resolvesLexical_iff {scope : Scope} {g : Grammar} {l : LexicalLeaf}
    (h : scope.Lists g l.terminals) {kindOf : String → Option Kind} {m : Meaning} :
    g.ResolvesLexical kindOf l m ↔
      m = scope.meaning kindOf g.name.text (.lexical l.owner.text) l.token.text := by
  constructor
  · intro hl
    exact (h.meaning_eq_of_resolves hl).symm
  · rintro rfl
    obtain ⟨m, hm⟩ := g.exists_resolvesLexical kindOf l
    rw [h.meaning_eq_of_resolves hm]
    exact hm

/-! ### What a pass makes of the section -/

section

variable (g : Grammar) (text : String)

/-- The definition of a declaration: of its name in the grammar, at the range of its token. -/
def Grammar.Defines (e : Declaration) (n : NamedMention) : Prop :=
  n.name = qualify g.name.text e.name.text ∧
    (LineIndex.ofText text).range? e.name.span = some n.range

/-- A pass over the section makes of a name in a definition what it should: it has gone over
whatever comes before, it has read the name and found the range, and it takes the name for what
it stands for at that moment. -/
structure Grammar.ComesToLexical (p : Pass) (l : LexicalLeaf) (x : Resolution) : Prop where
  /-- The pass is the one that has gone over whatever comes before the leaf. -/
  moment : p.walk (l.precedents g.name.text) = .ok x.moment
  /-- The name is that of the leaf. -/
  name : x.name = l.token.text
  /-- The range is that of its token. -/
  range : (LineIndex.ofText text).range? l.token.span = some x.range
  /-- The meaning is the one that the leaf has then. -/
  meaning : ∀ m, g.ResolvesLexical x.moment.registry.kindNamed? l m ↔ m = x.meaning

end

/-- A view goes on to another, with these definitions and resolutions recorded and nothing
else. -/
structure View.Adds (v : View) (ns : List NamedMention) (xs : List Resolution) (w : View) :
    Prop where
  /-- The lines are the same. -/
  lines : w.lines = v.lines
  /-- The definitions are added. -/
  definitions : w.definitions = v.definitions ++ ns
  /-- The references of the resolutions are added. -/
  references : w.references = v.references ++ xs.flatMap (·.references)
  /-- Their diagnostics are added. -/
  log : w.log =
    { v.log with
      entries := v.log.entries ++ xs.flatMap (·.diagnostics v.log.document v.log.source) }

namespace View

variable {u v w : View}

theorem Adds.refl (v : View) : v.Adds [] [] v := ⟨rfl, by simp, by simp, by simp⟩

theorem Adds.trans {ns ns' : List NamedMention} {xs ys : List Resolution} (h : u.Adds ns xs v)
    (h' : v.Adds ns' ys w) : u.Adds (ns ++ ns') (xs ++ ys) w where
  lines := h'.lines.trans h.lines
  definitions := by rw [h'.definitions, h.definitions, List.append_assoc]
  references := by rw [h'.references, h.references, List.flatMap_append, List.append_assoc]
  log := by rw [h'.log, h.log]; simp

/-- A declaration is recorded as a definition. -/
theorem adds_record_declaration (v : View) (grammar : String) (e : Declaration) (range : Range) :
    v.Adds [⟨qualify grammar e.name.text, range⟩] []
      (v.record grammar e.role e.name.text range) := by
  cases e with
  | context | terminal =>
    exact ⟨lines_record .., definitions_record .., references_record .., log_record ..⟩

/-- A name in a definition is recorded as what it means. -/
theorem adds_record_lexical (v : View) (grammar owner : String) {x : Resolution}
    (hx : x.meaning = v.scope.meaning v.kindOf grammar (.lexical owner) x.name) :
    v.Adds [] [x] (v.record grammar (.use (.lexical owner)) x.name x.range) where
  lines := lines_record ..
  definitions := definitions_record ..
  references := by
    rw [references_record, Role.meaning?, ← hx]
    rfl
  log := by
    rw [log_record, Role.meaning?, ← hx]
    rfl

end View

/-- The terminals are listed with the one that a declaration adds. -/
theorem Scope.Lists.enter {scope : Scope} {g : Grammar} {es : List Declaration}
    (h : scope.Lists g (es.filterMap (·.terminal?))) (e : Declaration) :
    (scope.enter e.role e.name.text).Lists g ((es ++ [e]).filterMap (·.terminal?)) := by
  rw [List.filterMap_append]
  cases e with
  | context name => exact ⟨h.imports, fun n => by simp [Scope.enter, Declaration.role,
      Declaration.terminal?, h.terminals]⟩
  | terminal name definition =>
    refine ⟨h.imports, fun n => ?_⟩
    simp [Scope.enter, Declaration.role, Declaration.name, Declaration.terminal?, mem_addNew,
      h.terminals]

/-- **A walk over the names in a definition** comes to what it should at each, and records that
and nothing else. -/
theorem Pass.Shows.exists_ofUses {g : Grammar} {text : String} {first p q : Pass} {v : View}
    {before : List Declaration} {owner : Token} {earlier uses : List Token} (h : p.Shows v)
    (hdone : ∀ t, first.walk (LexicalLeaf.precedents g.name.text ⟨before, owner, earlier, t⟩) =
      .ok p)
    (hscope : v.scope.Lists g (before.filterMap (·.terminal?) ++ [owner.text]))
    (hlines : v.lines = .ofText text)
    (hwalk : p.walk (uses.map fun use =>
      ⟨g.name.text, .use (.lexical owner.text), use⟩) = .ok q) :
    ∃ w xs, q.Shows w ∧ v.Adds [] xs w ∧ w.scope = v.scope ∧
      List.Forall₂ (g.ComesToLexical text first) (LexicalLeaf.ofUses before owner earlier uses)
        xs := by
  -- by induction on the names that are left; `earlier` grows by the one that was looked at
  induction uses generalizing earlier p v with
  | nil =>
    obtain rfl : p = q := Except.ok.inj hwalk
    exact ⟨v, [], h, .refl v, rfl, .nil⟩
  | cons use uses ih =>
    obtain ⟨p', name, range, hfirst, hname, hrange, hshows, hrest⟩ := h.exists_first hwalk
    obtain rfl : use.text = name := Option.some.inj hname
    -- the leaf as the pass comes to it
    let x : Resolution := ⟨p, use.text, range,
      v.scope.meaning v.kindOf g.name.text (.lexical owner.text) use.text⟩
    have hadds : v.Adds [] [x] (v.record g.name.text (.use (.lexical owner.text)) use.text range) :=
      v.adds_record_lexical g.name.text owner.text rfl
    have hsame : (v.record g.name.text (.use (.lexical owner.text)) use.text range).scope =
        v.scope := View.scope_record ..
    -- the pass has gone over one name more, whatever the next one is
    have hdone' : ∀ t, first.walk
        (LexicalLeaf.precedents g.name.text ⟨before, owner, earlier ++ [use], t⟩) = .ok p' := by
      intro t
      have happend : LexicalLeaf.precedents g.name.text ⟨before, owner, earlier ++ [use], t⟩ =
          LexicalLeaf.precedents g.name.text ⟨before, owner, earlier, t⟩ ++
            [⟨g.name.text, .use (.lexical owner.text), use⟩] := by
        simp [LexicalLeaf.precedents]
      rw [happend, walk_append, hdone t]
      exact hfirst
    obtain ⟨w, xs, hw, hxs, hwscope, hleaves⟩ := ih hshows hdone' (hsame.symm ▸ hscope)
      (hadds.lines.trans hlines) hrest
    refine ⟨w, x :: xs, hw, hadds.trans hxs, hwscope.trans hsame, .cons ?_ hleaves⟩
    refine ⟨hdone use, rfl, hlines ▸ hrange, fun m => ?_⟩
    show g.ResolvesLexical p.registry.kindNamed? ⟨before, owner, earlier, use⟩ m ↔ _
    rw [h.kindNamed?]
    exact Scope.Lists.resolvesLexical_iff hscope

/-- **A declaration is recorded with its definition, name by name.** -/
theorem Pass.Shows.exists_declaration {g : Grammar} {text : String} {first p q : Pass} {v : View}
    {before : List Declaration} {e : Declaration} (h : p.Shows v)
    (hdone : first.walk (before.flatMap (·.occurrences g.name.text)) = .ok p)
    (hscope : v.scope.Lists g (before.filterMap (·.terminal?)))
    (hlines : v.lines = .ofText text) (hwalk : p.walk (e.occurrences g.name.text) = .ok q) :
    ∃ w n xs, q.Shows w ∧ v.Adds [n] xs w ∧
      w.scope.Lists g ((before ++ [e]).filterMap (·.terminal?)) ∧ g.Defines text e n ∧
      List.Forall₂ (g.ComesToLexical text first) (LexicalLeaf.ofUses before e.name [] e.uses)
        xs := by
  -- the name of the declaration comes first, and its definition after it
  obtain ⟨p', name, range, hfirst, hname, hrange, hshows, hrest⟩ := h.exists_first hwalk
  obtain rfl : e.name.text = name := by
    cases e <;> exact Option.some.inj hname
  have hadds := v.adds_record_declaration g.name.text e range
  have hentered : (v.record g.name.text e.role e.name.text range).scope.Lists g
      ((before ++ [e]).filterMap (·.terminal?)) := by
    rw [View.scope_record]
    exact hscope.enter e
  have hdefines : g.Defines text e ⟨qualify g.name.text e.name.text, range⟩ :=
    ⟨rfl, hlines ▸ hrange⟩
  cases e with
  | context t =>
    -- a context has no definition
    obtain rfl : p' = q := Except.ok.inj hrest
    exact ⟨_, _, [], hshows, hadds, hentered, hdefines, .nil⟩
  | terminal t definition =>
    have hdone' : ∀ use,
        first.walk (LexicalLeaf.precedents g.name.text ⟨before, t, [], use⟩) = .ok p' := by
      intro use
      rw [LexicalLeaf.precedents, List.map_nil, walk_append, hdone]
      exact hfirst
    -- a definition is looked at with the terminal itself listed
    have hlisted : (before ++ [Declaration.terminal t definition]).filterMap (·.terminal?) =
        before.filterMap (·.terminal?) ++ [t.text] := by
      rw [List.filterMap_append]
      rfl
    obtain ⟨w, xs, hw, hxs, hsame, hleaves⟩ := hshows.exists_ofUses hdone' (hlisted ▸ hentered)
      (hadds.lines.trans hlines) hrest
    exact ⟨w, _, xs, hw, hadds.trans hxs, hsame.symm ▸ hentered, hdefines, hleaves⟩

/-- **A walk over the section comes to what it should at every declaration**, and records that
and nothing else. -/
theorem Pass.Shows.exists_lexicon {g : Grammar} {text : String} {first p q : Pass} {v : View}
    {before es : List Declaration} (h : p.Shows v)
    (hdone : first.walk (before.flatMap (·.occurrences g.name.text)) = .ok p)
    (hscope : v.scope.Lists g (before.filterMap (·.terminal?)))
    (hlines : v.lines = .ofText text)
    (hwalk : p.walk (es.flatMap (·.occurrences g.name.text)) = .ok q) :
    ∃ w ns xs, q.Shows w ∧ v.Adds ns xs w ∧ List.Forall₂ (g.Defines text) es ns ∧
      List.Forall₂ (g.ComesToLexical text first) (LexicalLeaf.ofDeclarations before es) xs := by
  -- by induction on the declarations that are left; `before` collects those that were gone over
  induction es generalizing before p v with
  | nil =>
    obtain rfl : p = q := Except.ok.inj hwalk
    exact ⟨v, [], [], h, .refl v, .nil, .nil⟩
  | cons e es ih =>
    rw [List.flatMap_cons] at hwalk
    obtain ⟨p', hfirst, hrest⟩ := exists_of_walk_append hwalk
    obtain ⟨u, n, xs, hu, hadds, hentered, hdefines, hleaves⟩ :=
      h.exists_declaration hdone hscope hlines hfirst
    have hdone' : first.walk ((before ++ [e]).flatMap (·.occurrences g.name.text)) = .ok p' := by
      rw [List.flatMap_append, List.flatMap_singleton, walk_append, hdone]
      exact hfirst
    obtain ⟨w, ns, ys, hw, hrestAdds, hrestDefines, hrestLeaves⟩ := ih hu hdone' hentered
      (hadds.lines.trans hlines) hrest
    exact ⟨w, n :: ns, xs ++ ys, hw, hadds.trans hrestAdds, .cons hdefines hrestDefines,
      List.rel_append hleaves hrestLeaves⟩

/-! ### Analyses -/

/-- The occurrences of a grammar ahead of its terminals section: its name and its parents. -/
def Grammar.prologue (g : Grammar) : List Occurrence :=
  ⟨g.name.text, .grammar, g.name⟩ :: g.parents.map fun p => ⟨g.name.text, .use .parent, p⟩

theorem Grammar.occurrences_eq_prologue (g : Grammar) :
    g.occurrences = g.prologue ++ (g.lexicon ++
      (g.rules.map (fun rule => ⟨g.name.text, .nonterminal, rule.name⟩) ++ g.bodies)) := by
  rw [occurrences_eq, headings, prologue, lexicon]
  simp only [List.append_assoc, List.cons_append]

/-- A grammar begins with its parents and without terminals, whatever came before. -/
theorem Grammar.lists_prologue (g : Grammar) (scope : Scope) :
    (g.prologue.foldl Scope.meet scope).Lists g [] := by
  let parents := g.parents.map fun p => (⟨g.name.text, .use .parent, p⟩ : Occurrence)
  -- the name of the grammar empties the scope
  show (parents.foldl Scope.meet .empty).Lists g []
  have hroles : ∀ o ∈ parents, o.role = .use .parent := by
    intro o ho
    obtain ⟨p, -, rfl⟩ := List.mem_map.mp ho
    rfl
  have hnames : ∀ role : Role, role.isEntered = true →
      (parents.foldl Scope.meet .empty).namesOf role =
        ((parents.filter (·.role = role)).map (·.token.text)).eraseDups := by
    intro role hentered
    refine Scope.namesOf_foldl_meet hentered fun o ho => ?_
    rw [hroles o ho]
    simp
  have hall : parents.filter (·.role = .use .parent) = parents :=
    List.filter_eq_self.mpr fun o ho => decide_eq_true (hroles o ho)
  have hnone : parents.filter (·.role = .terminal) = [] :=
    List.filter_eq_nil_iff.mpr fun o ho => by simp [hroles o ho]
  constructor
  · show (parents.foldl Scope.meet .empty).namesOf (.use .parent) = _
    rw [hnames _ rfl, hall, List.map_map]
    rfl
  · intro name
    show name ∈ (parents.foldl Scope.meet .empty).namesOf .terminal ↔ _
    rw [hnames _ rfl, hnone]
    rfl

/-- A pass over the terminals section of a grammar has defined every name in it, and has resolved
every name in a definition, once and in order; and it has recorded this and nothing else.  The
symbols are those of the registry `r`. -/
structure Grammar.LexiconResolved (g : Grammar) (source : String) (d : DocumentId) (text : String)
    (r : Registry) (p q : Pass) (ns : List NamedMention) (xs : List Resolution) : Prop where
  /-- The pass has gone over the section. -/
  walk : p.walk g.lexicon = .ok q
  /-- There is one definition for every declaration. -/
  declarations : List.Forall₂ (g.Defines text) g.declarations ns
  /-- There is one resolution for every name in a definition. -/
  leaves : List.Forall₂ (g.ComesToLexical text p) g.lexicalLeaves xs
  /-- The definitions were recorded. -/
  definitions : ∃ ms, q.definitions = p.definitions ++ ms ∧ List.Forall₂ r.Reads ms ns
  /-- The references of the resolutions were recorded. -/
  references : ∃ ms, q.references = p.references ++ ms ∧
    List.Forall₂ r.Reads ms (xs.flatMap (·.references))
  /-- The diagnostics of the resolutions were recorded. -/
  diagnostics : q.log.entries = p.log.entries ++ xs.flatMap (·.diagnostics d source)

/-- What is recorded on the way from one pass to another reads as what the views gain, in the
registry of a third. -/
theorem exists_forall₂_reads {r r' : Registry} (hkeeps : r.Keeps r') {ms ms' : List Mention}
    {ns ns' : List NamedMention} {r₀ : Registry} (hms : List.Forall₂ r₀.Reads ms ns)
    (hms' : List.Forall₂ r.Reads ms' (ns ++ ns')) (hextends : ms <+: ms') :
    ∃ rest, ms' = ms ++ rest ∧ List.Forall₂ r'.Reads rest ns' := by
  obtain ⟨rest, rfl⟩ := hextends
  exact ⟨rest, rfl, hkeeps.forall₂_reads (forall₂_of_append hms.length_eq hms')⟩

/-- **Every analysis resolves every definition in one pass.**  After any history, let an analysis
succeed, and let a grammar stand in its tree.  Then the analysis comes to the terminals section
and goes over it with all contexts opened in place.  Every context and terminal is defined, in
source order, under its name in the grammar.  Every name in a definition comes to one thing: the
mistake `hime.3` if it is the terminal itself, or else a terminal that is declared by then, or
else a terminal of the first parent that has it at that moment, or else the mistake `hime.4`.
The references and diagnostics of these names are recorded in this order with nothing else in
between, and they stay in the result. -/
theorem exists_lexicon_of_analyze {history : List Registry.Event} {source text : String}
    {d : DocumentId} {tree : Tree} {a : Analysis} {r : Registry}
    (h : analyze source (Registry.after history) d text tree = (.ok a, r))
    {before later : List Grammar} {g : Grammar} (hg : tree.grammars = before ++ g :: later) :
    ∃ p q ns xs,
      (analysisStart source (Registry.after history) d text).walk
        (before.flatMap (·.occurrences) ++ g.prologue) = .ok p ∧
      g.LexiconResolved source d text r p q ns xs ∧
      q.definitions <+: a.definitions ∧ q.references <+: a.references ∧
      q.log.entries <+: a.diagnostics := by
  -- the section stands between the parents of its grammar and the rules
  have hoccurrences : tree.occurrences = (before.flatMap (·.occurrences) ++ g.prologue) ++
      (g.lexicon ++ (g.rules.map (fun rule => ⟨g.name.text, .nonterminal, rule.name⟩) ++ g.bodies ++
        later.flatMap (·.occurrences))) := by
    rw [Tree.occurrences, hg, List.flatMap_append, List.flatMap_cons, g.occurrences_eq_prologue]
    simp only [List.append_assoc]
  -- an analysis is one walk, which is cut here at both ends of the section
  obtain ⟨last, hlast, rfl, rfl⟩ := exists_walk_of_analyze h
  rw [hoccurrences] at hlast
  obtain ⟨p, hp, hrest⟩ := Pass.exists_of_walk_append hlast
  obtain ⟨q, hq, hlater⟩ := Pass.exists_of_walk_append hrest
  -- where the section begins, the scope has the parents and nothing else
  obtain ⟨v, hshows, hscope, hlines, hdocument, hsource⟩ :=
    exists_view_of_walk (Registry.wellFormed_after history) hp
  rw [List.foldl_append] at hscope
  rw [← g.flatMap_declarations] at hq
  have hnothing : p.walk (([] : List Declaration).flatMap (·.occurrences g.name.text)) = .ok p :=
    Pass.walk_nil p
  obtain ⟨w, ns, xs, hw, hadds, hdefines, hleaves⟩ := hshows.exists_lexicon hnothing
    (hscope ▸ g.lists_prologue _) hlines hq
  rw [g.flatMap_declarations] at hq
  -- whatever comes after the section only adds to what was recorded by then
  have hmiddle := Pass.eq_play_of_walk hq
  have hend := Pass.eq_play_of_walk hlater
  have hkeeps : q.registry.Keeps last.registry := by
    rw [hend]
    exact q.keeps_play _
  refine ⟨p, q, ns, xs, hp, ⟨hq, hdefines, hleaves, ?_, ?_, ?_⟩, ?_, ?_, ?_⟩
  · -- handles that were given out by then read the same in the last registry
    refine exists_forall₂_reads hkeeps hshows.definitions ?_ ?_
    · rw [← hadds.definitions]
      exact hw.definitions
    · rw [hmiddle]
      exact p.definitions_isPrefix_play _
  · refine exists_forall₂_reads hkeeps hshows.references ?_ ?_
    · rw [← hadds.references]
      exact hw.references
    · rw [hmiddle]
      exact p.references_isPrefix_play _
  · rw [hw.log, hadds.log, hshows.log, hdocument, hsource]
  · rw [hend]
    exact q.definitions_isPrefix_play _
  · rw [hend]
    exact q.references_isPrefix_play _
  · obtain ⟨entries, hentries⟩ := q.exists_log_play (q.walkMoves _)
    rw [← hend] at hentries
    exact ⟨entries, (congrArg DiagnosticLog.entries hentries).symm⟩

/-- The text of a document with a terminals section. -/
def lexiconText : String := "G:P,Q,P{C{T->t U->(T|U)-X}V->W W->w}"

/-- Its grammar: a parent that is named twice, a context, and names of every sort. -/
def lexiconGrammar : Grammar where
  name := ⟨"G", ⟨0, 1⟩⟩
  parents := [⟨"P", ⟨2, 3⟩⟩, ⟨"Q", ⟨4, 5⟩⟩, ⟨"P", ⟨6, 7⟩⟩]
  options := []
  terminals := [
    .context ⟨"C", ⟨8, 9⟩⟩ [
      .terminal ⟨"T", ⟨10, 11⟩⟩ (.atom ⟨"t", ⟨13, 14⟩⟩),
      .terminal ⟨"U", ⟨15, 16⟩⟩ (.difference
        (.union [.reference ⟨"T", ⟨19, 20⟩⟩, .reference ⟨"U", ⟨21, 22⟩⟩])
        (.reference ⟨"X", ⟨24, 25⟩⟩))],
    .terminal ⟨"V", ⟨26, 27⟩⟩ (.reference ⟨"W", ⟨29, 30⟩⟩),
    .terminal ⟨"W", ⟨31, 32⟩⟩ (.atom ⟨"w", ⟨34, 35⟩⟩)]
  rules := []

/-- What is wrong in it. -/
def lexiconDiagnostics : List Diagnostic := [
  ⟨⟨0⟩, ⟨⟨0, 21⟩, ⟨0, 22⟩⟩, .error, .selfReferentialTerminal, "hime",
    "Terminal 'U' is self-referential in its definition."⟩,
  ⟨⟨0⟩, ⟨⟨0, 29⟩, ⟨0, 30⟩⟩, .warning, .missingTerminal, "hime",
    "Missing definition for referenced terminal 'W'."⟩]

/-- Other documents have a variable `X` in `P`, the first parent, and a terminal `X` in `Q`, which
`G` inherits.  `U` is not defined by itself, and `W` comes too late for `V`. -/
theorem exists_lexicon_of_analyze_contexts :
    let history := [Registry.Event.analysis "hime" ⟨1⟩ "P[X]"
        (.ok ⟨[⟨⟨"P", ⟨0, 1⟩⟩, [], [], [], [⟨⟨"X", ⟨2, 3⟩⟩, [], .literal ⟨"x", ⟨2, 3⟩⟩⟩]⟩]⟩),
      .analysis "hime" ⟨2⟩ "Q[X]"
        (.ok ⟨[⟨⟨"Q", ⟨0, 1⟩⟩, [], [], [.terminal ⟨"X", ⟨2, 3⟩⟩ (.atom ⟨"x", ⟨2, 3⟩⟩)], []⟩]⟩)]
    let tree : Tree := ⟨[lexiconGrammar]⟩
    ∃ a r, analyze "hime" (Registry.after history) ⟨0⟩ lexiconText tree = (.ok a, r) ∧
      tree.grammars = [] ++ lexiconGrammar :: [] ∧
      a.definitions.length = 6 ∧ a.references.length = 5 ∧
      a.diagnostics = lexiconDiagnostics ∧
      a.diagnostics.map (·.mistake.code) = ["hime.3", "hime.4"] ∧
      ∃ p q ns xs,
        (analysisStart "hime" (Registry.after history) ⟨0⟩ lexiconText).walk
          (([] : List Grammar).flatMap (·.occurrences) ++ lexiconGrammar.prologue) = .ok p ∧
        lexiconGrammar.LexiconResolved "hime" ⟨0⟩ lexiconText r p q ns xs ∧
        q.definitions <+: a.definitions ∧ q.references <+: a.references ∧
        q.log.entries <+: a.diagnostics := by
  intro history tree
  have hsome : (analyze "hime" (Registry.after history) ⟨0⟩ lexiconText tree).1.toOption.any
      (fun a => a.definitions.length = 6 ∧ a.references.length = 5 ∧
        a.diagnostics = lexiconDiagnostics) = true := by
    decide +kernel
  obtain ⟨a, r, houtcome, hfound⟩ := exists_eq_ok_of_any hsome
  obtain ⟨hdefinitions, hreferences, hdiagnostics⟩ := of_decide_eq_true hfound
  have hcodes : a.diagnostics.map (·.mistake.code) = ["hime.3", "hime.4"] := by
    rw [hdiagnostics]
    rfl
  have hg : tree.grammars = [] ++ lexiconGrammar :: [] := rfl
  exact ⟨a, r, houtcome, hg, hdefinitions, hreferences, hdiagnostics, hcodes,
    exists_lexicon_of_analyze houtcome hg⟩

end GrammarIndex
