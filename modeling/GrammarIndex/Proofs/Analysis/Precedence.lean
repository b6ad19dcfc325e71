import GrammarIndex.Proofs.Analysis.Lexicon

/-!
# Which declaration wins

A terminal of a grammar and a terminal of one of its parents may have the same name.  The rules
come after the whole terminals section, and there the terminal of the grammar wins.  In the
section it wins from its declaration on; a definition further up does not know it yet, and may
be left with the terminal of the parent.

## Main definitions

* `RecordsAs` — an occurrence is recorded as a reference to the symbol of this name.
* `Grammar.PrefersTerminal` — what becomes of the leaves that have the name of a terminal.

## Main results

* `exists_recordsAs_iff` — a use is recorded as what it means when the pass comes to it.
* `Grammar.lists_precedents` — what is declared where a definition mentions a name.
* `prefersTerminal_of_analyze` — **a terminal of the grammar wins, once it is declared.**
* `exists_recordsAs_parent` — a definition ahead of the declaration is left with the parent.
-/

namespace GrammarIndex

/-! ### What an occurrence is recorded as -/

/-- The pass comes to an occurrence after others, and records it as a reference at its range to
the symbol of this qualified name, for good.  The symbols are those of the registry `r`. -/
def RecordsAs (first : Pass) (r : Registry) (a : Analysis) (os : List Occurrence) (o : Occurrence)
    (q : String) : Prop :=
  ∃ p p' m, first.walk os = .ok p ∧ p.visit o = .ok p' ∧
    p'.references = p.references ++ [m] ∧ p'.references <+: a.references ∧
    p.rangeOf o.token.span = .ok m.range ∧ r.Reads m ⟨q, m.range⟩

/-- A pass that goes on has recorded a use, at its range, as what it means. -/
theorem Pass.Shows.exists_recorded {p last : Pass} {v : View} (h : p.Shows v) {o : Occurrence}
    {rest : List Occurrence} (hwalk : p.walk (o :: rest) = .ok last) {u : Use}
    (hrole : o.role = .use u) {name : String} (hname : o.name? = some name) :
    ∃ p' ms range, p.visit o = .ok p' ∧ p'.references = p.references ++ ms ∧
      p'.references <+: last.references ∧ p.rangeOf o.token.span = .ok range ∧
      List.Forall₂ last.registry.Reads ms
        ((v.scope.meaning v.kindOf o.grammar u name).references range) := by
  obtain ⟨p', name', range, hfirst, hname', hrange, hshows, hlater⟩ := h.exists_first hwalk
  obtain rfl : name = name' := Option.some.inj (hname.symm.trans hname')
  have hvisit : p.visit o = .ok p' := by
    simpa only [Pass.walk, List.foldlM_cons, List.foldlM_nil, bind_pure] using hfirst
  -- what the visit records stays where it is, since passes only add
  obtain ⟨ms, hms⟩ : p.references <+: p'.references := by
    rw [eq_play_of_walk hfirst]
    exact p.references_isPrefix_play _
  have hlast : last = p'.play (p'.walkMoves rest) := eq_play_of_walk hlater
  have hlasts : p'.references <+: last.references := by
    rw [hlast]
    exact p'.references_isPrefix_play _
  have hkeeps : p'.registry.Keeps last.registry := by
    rw [hlast]
    exact p'.keeps_play _
  -- what was there before reads as before, and so the rest reads as the meaning
  have hreads : List.Forall₂ last.registry.Reads ms
      ((v.scope.meaning v.kindOf o.grammar u name).references range) := by
    have hall := hkeeps.forall₂_reads hshows.references
    rw [← hms, View.references_record, hrole] at hall
    simpa [Role.meaning?] using forall₂_of_append h.references.length_eq hall
  have hrangeOf : p.rangeOf o.token.span = .ok range := by
    rw [h.rangeOf, hrange]
  exact ⟨p', ms, range, hvisit, hms.symm, hlasts, hrangeOf, hreads⟩

/-- **A use is recorded as what it means** when the pass comes to it, and as nothing else. -/
theorem exists_recordsAs_iff {history : List Registry.Event} {source text : String}
    {d : DocumentId} {tree : Tree} {a : Analysis} {r : Registry}
    (h : analyze source (Registry.after history) d text tree = (.ok a, r))
    {os rest : List Occurrence} {o : Occurrence} (hos : tree.occurrences = os ++ o :: rest)
    {u : Use} (hrole : o.role = .use u) {name : String} (hname : o.name? = some name) :
    ∃ p v, (analysisStart source (Registry.after history) d text).walk os = .ok p ∧ p.Shows v ∧
      v.scope = os.foldl Scope.meet .empty ∧
      ∀ q, RecordsAs (analysisStart source (Registry.after history) d text) r a os o q ↔
        v.scope.meaning v.kindOf o.grammar u name = .symbol q := by
  -- the walk is cut where the occurrence is visited
  obtain ⟨last, hlast, rfl, rfl⟩ := exists_walk_of_analyze h
  rw [hos] at hlast
  obtain ⟨p, hp, hrest⟩ := Pass.exists_of_walk_append hlast
  obtain ⟨v, hshows, hscope, -⟩ := exists_view_of_walk (Registry.wellFormed_after history) hp
  obtain ⟨p', ms, range, hvisit, hms, hlasts, hrange, hreads⟩ :=
    hshows.exists_recorded hrest hrole hname
  refine ⟨p, v, hp, hshows, hscope, fun q => ⟨?_, ?_⟩⟩
  · -- a record at the occurrence is what the visit has added
    rintro ⟨p₁, p₂, m, hp₁, hp₂, hone, -, -, hread⟩
    obtain rfl : p = p₁ := Except.ok.inj (hp.symm.trans hp₁)
    obtain rfl : p' = p₂ := Except.ok.inj (hvisit.symm.trans hp₂)
    obtain rfl : ms = [m] := List.append_cancel_left (hms.symm.trans hone)
    cases hmeaning : v.scope.meaning v.kindOf o.grammar u name with
    | mistake =>
      rw [hmeaning] at hreads
      exact absurd hreads.length_eq (by simp [Meaning.references])
    | symbol q' =>
      rw [hmeaning] at hreads
      obtain ⟨⟨s, hs, hsq'⟩, -⟩ := (List.forall₂_cons.mp hreads).1
      obtain ⟨⟨s', hs', hs'q⟩, -⟩ := hread
      obtain rfl : s = s' := Option.some.inj (hs.symm.trans hs')
      exact congrArg Meaning.symbol (hsq'.symm.trans hs'q)
  · -- a meaning that is a symbol is recorded as one reference
    intro hmeaning
    rw [hmeaning] at hreads
    obtain ⟨m, _, hread, hnil, rfl⟩ := List.forall₂_cons_right_iff.mp hreads
    obtain rfl := List.forall₂_nil_right_iff.mp hnil
    obtain ⟨hsymbol, rfl⟩ := hread
    exact ⟨p, p', m, hp, hvisit, hms, hlasts, hrange, hsymbol, rfl⟩

/-! ### What is declared where a definition mentions a name -/

namespace Scope

/-- The names in a definition enter nothing. -/
theorem foldl_meet_lexical (scope : Scope) (grammar owner : String) (uses : List Token) :
    (uses.map fun use => (⟨grammar, .use (.lexical owner), use⟩ : Occurrence)).foldl meet scope =
      scope := by
  induction uses with
  | nil => rfl
  | cons use uses ih => exact ih

/-- Several declarations list their terminals. -/
theorem Lists.foldl_meet_declarations {scope : Scope} {g : Grammar} (es es' : List Declaration)
    (h : scope.Lists g (es.filterMap (·.terminal?))) :
    ((es'.flatMap (·.occurrences g.name.text)).foldl meet scope).Lists g
      ((es ++ es').filterMap (·.terminal?)) := by
  induction es' generalizing es scope with
  | nil =>
    rw [List.append_nil]
    exact h
  | cons e es' ih =>
    have hentered : (e.occurrences g.name.text).foldl meet scope =
        scope.enter e.role e.name.text :=
      foldl_meet_lexical _ g.name.text e.name.text e.uses
    rw [List.flatMap_cons, List.foldl_append, hentered, List.append_cons]
    exact ih (es ++ [e]) (h.enter e)

end Scope

/-- **Where a definition mentions a name, the terminals that come before it are declared**, and
no others. -/
theorem Grammar.lists_precedents (g : Grammar) (l : LexicalLeaf) (scope : Scope) :
    ((g.prologue ++ l.precedents g.name.text).foldl Scope.meet scope).Lists g l.terminals := by
  have hbefore := (g.lists_prologue scope).foldl_meet_declarations [] l.before
  rw [List.nil_append] at hbefore
  -- however the terminal itself is defined
  have howner := hbefore.enter (.terminal l.owner (.sequence []))
  rw [LexicalLeaf.precedents, List.foldl_append, List.foldl_append, List.foldl_cons,
    Scope.foldl_meet_lexical]
  rw [List.filterMap_append] at howner
  exact howner

/-! ### What leaves are recorded as -/

section

variable {history : List Registry.Event} {source text : String} {d : DocumentId} {tree : Tree}
  {a : Analysis} {r : Registry} {before later : List Grammar} {g : Grammar}

/-- A name in a definition is recorded as the symbol that it stands for at that moment. -/
theorem exists_recordsAs_lexical_iff
    (h : analyze source (Registry.after history) d text tree = (.ok a, r))
    (hg : tree.grammars = before ++ g :: later) {l : LexicalLeaf} (hl : l ∈ g.lexicalLeaves) :
    ∃ p, (analysisStart source (Registry.after history) d text).walk
        (before.flatMap (·.occurrences) ++ (g.prologue ++ l.precedents g.name.text)) = .ok p ∧
      ∀ q, RecordsAs (analysisStart source (Registry.after history) d text) r a
          (before.flatMap (·.occurrences) ++ (g.prologue ++ l.precedents g.name.text))
          (l.occurrence g.name.text) q ↔
        g.ResolvesLexical p.registry.kindNamed? l (.symbol q) := by
  -- what comes before the leaf in its section comes before it in the tree
  obtain ⟨rest, hrest⟩ := g.exists_lexicon_eq hl
  obtain ⟨after, hoccurrences⟩ : ∃ after, tree.occurrences =
      (before.flatMap (·.occurrences) ++ (g.prologue ++ l.precedents g.name.text)) ++
        l.occurrence g.name.text :: after := by
    rw [Tree.occurrences, hg, List.flatMap_append, List.flatMap_cons, g.occurrences_eq_prologue,
      hrest]
    simp only [List.append_assoc, List.cons_append]
    exact ⟨_, rfl⟩
  have hname : (l.occurrence g.name.text).name? = some l.token.text := rfl
  obtain ⟨p, v, hp, hshows, hscope, hrecords⟩ := exists_recordsAs_iff h hoccurrences rfl hname
  -- by then the scope lists the terminals that were declared so far
  have hlists : v.scope.Lists g l.terminals := by
    rw [hscope, List.foldl_append]
    exact g.lists_precedents l _
  refine ⟨p, hp, fun q => ?_⟩
  rw [hrecords, hshows.kindNamed?, hlists.resolvesLexical_iff]
  exact eq_comm

/-- A leaf of a rule or an option is recorded as the symbol that it stands for at that moment. -/
theorem exists_recordsAs_leaf_iff
    (h : analyze source (Registry.after history) d text tree = (.ok a, r))
    (hg : tree.grammars = before ++ g :: later) {l : Leaf} {done rest : List Occurrence}
    (hl : g.bodies = done ++ l.occurrence g.name.text :: rest) {name : String}
    (hname : l.name? = some name) :
    ∃ p, (analysisStart source (Registry.after history) d text).walk
        (before.flatMap (·.occurrences) ++
          (⟨g.name.text, .grammar, g.name⟩ :: g.headings ++ done)) = .ok p ∧
      ∀ q, RecordsAs (analysisStart source (Registry.after history) d text) r a
          (before.flatMap (·.occurrences) ++
            (⟨g.name.text, .grammar, g.name⟩ :: g.headings ++ done))
          (l.occurrence g.name.text) q ↔
        g.Resolves p.registry.kindNamed? l name (.symbol q) := by
  have hoccurrences : tree.occurrences =
      (before.flatMap (·.occurrences) ++
        (⟨g.name.text, .grammar, g.name⟩ :: g.headings ++ done)) ++
        l.occurrence g.name.text :: (rest ++ later.flatMap (·.occurrences)) := by
    rw [Tree.occurrences, hg, List.flatMap_append, List.flatMap_cons, g.occurrences_eq, hl]
    simp only [List.append_assoc, List.cons_append]
  have hname' : (l.occurrence g.name.text).name? = some name := by
    rw [← hname]
    cases l <;> rfl
  obtain ⟨p, v, hp, hshows, hscope, hrecords⟩ := exists_recordsAs_iff h hoccurrences rfl hname'
  -- bodies enter nothing, and so the scope is that after the headings
  have hdone : done ⊆ g.bodies := by
    rw [hl]
    exact List.subset_append_left _ _
  have hdeclares : v.scope.Declares g := by
    rw [hscope, List.foldl_append, List.foldl_append, g.foldl_meet_bodies hdone]
    exact g.declares_headings _
  refine ⟨p, hp, fun q => ?_⟩
  rw [hrecords, hshows.kindNamed?, hdeclares.resolves_iff]
  exact eq_comm

end

/-! ### Analyses -/

/-- The analysis prefers the terminal `n` of a grammar to those of its parents, wherever it can.
The grammar comes after the grammars `before`. -/
structure Grammar.PrefersTerminal (g : Grammar) (first : Pass) (r : Registry) (a : Analysis)
    (before : List Grammar) (n : String) : Prop where
  /-- In the definition of another terminal, the name stands for it once it is declared. -/
  declared : ∀ l ∈ g.lexicalLeaves, l.token.text = n → l.owner.text ≠ n → n ∈ l.terminals →
    ∀ q, RecordsAs first r a
      (before.flatMap (·.occurrences) ++ (g.prologue ++ l.precedents g.name.text))
      (l.occurrence g.name.text) q ↔ q = qualify g.name.text n
  /-- Further up, the name stands for nothing but the terminal of the first parent that has one of
  this name at that moment. -/
  ahead : ∀ l ∈ g.lexicalLeaves, l.token.text = n → n ∉ l.terminals →
    ∀ q, RecordsAs first r a
      (before.flatMap (·.occurrences) ++ (g.prologue ++ l.precedents g.name.text))
      (l.occurrence g.name.text) q →
      ∃ p ps parent qs,
        first.walk (before.flatMap (·.occurrences) ++
          (g.prologue ++ l.precedents g.name.text)) = .ok p ∧
        g.parents = ps ++ parent :: qs ∧
        (∀ x ∈ ps, p.registry.kindNamed? (qualify x.text n) ≠ some .terminal) ∧
        p.registry.kindNamed? (qualify parent.text n) = some .terminal ∧
        q = qualify parent.text n
  /-- In a rule that has no such parameter, the name always stands for it. -/
  bodies : ∀ rule token done rest,
    g.bodies = done ++ (Leaf.name rule token).occurrence g.name.text :: rest → token.text = n →
    n ∉ rule.parameters.map (·.text) →
    ∀ q, RecordsAs first r a
      (before.flatMap (·.occurrences) ++ (⟨g.name.text, .grammar, g.name⟩ :: g.headings ++ done))
      ((Leaf.name rule token).occurrence g.name.text) q ↔ q = qualify g.name.text n

/-- **A terminal of the grammar wins over one of a parent, once it is declared.**  After any
history, let an analysis succeed, and let a grammar of its tree declare a terminal, at any depth.
Then a name in a rule that has no such parameter is recorded as a reference to this terminal and
to nothing else, and so is a name in the definition of another terminal from the declaration on.
A name in a definition further up is recorded as a reference to nothing but the terminal of the
first parent that has one of this name at that moment. -/
theorem prefersTerminal_of_analyze {history : List Registry.Event} {source text : String}
    {d : DocumentId} {tree : Tree} {a : Analysis} {r : Registry}
    (h : analyze source (Registry.after history) d text tree = (.ok a, r))
    {before later : List Grammar} {g : Grammar} (hg : tree.grammars = before ++ g :: later)
    {n : String} (hn : g.HasTerminal n) :
    g.PrefersTerminal (analysisStart source (Registry.after history) d text) r a before n where
  declared := by
    rintro l hl rfl howner hdeclared q
    obtain ⟨p, -, hrecords⟩ := exists_recordsAs_lexical_iff h hg hl
    rw [hrecords]
    constructor
    · -- it is declared by then, and so no parent is asked
      intro hq
      cases hq with
      | terminal => rfl
      | inherited _ hterminal => exact absurd hdeclared hterminal
    · rintro rfl
      exact .terminal howner.symm hdeclared
  ahead := by
    rintro l hl rfl hdeclared q hq
    obtain ⟨p, hp, hrecords⟩ := exists_recordsAs_lexical_iff h hg hl
    -- it is not declared yet, and so only a parent can have it
    cases (hrecords q).mp hq with
    | terminal _ hterminal => exact absurd hterminal hdeclared
    | inherited _ _ hparents hbefore hkind =>
      exact ⟨p, _, _, _, hp, hparents, hbefore, hkind, rfl⟩
  bodies := by
    rintro rule token done rest hbodies rfl hparameter q
    obtain ⟨p, -, hrecords⟩ := exists_recordsAs_leaf_iff h hg hbodies rfl
    rw [hrecords]
    constructor
    · -- a name that is no parameter is looked for among the terminals first
      intro hq
      cases hq with
      | parameter hmem => exact absurd hmem hparameter
      | terminal => rfl
      | nonterminal _ hterminal => exact absurd hn hterminal
      | inherited _ hterminal => exact absurd hn hterminal
    · rintro rfl
      exact .terminal hparameter hn

/-- The text of a document whose grammar has a terminal of the name that its parent also has. -/
def precedenceText : String := "B:A{Y->X X->b Z->X}S->X"

/-- Its grammar: the terminal `X` comes after the definition of `Y`, and ahead of that of `Z`. -/
def precedenceGrammar : Grammar where
  name := ⟨"B", ⟨0, 1⟩⟩
  parents := [⟨"A", ⟨2, 3⟩⟩]
  options := []
  terminals := [
    .terminal ⟨"Y", ⟨4, 5⟩⟩ (.reference ⟨"X", ⟨7, 8⟩⟩),
    .terminal ⟨"X", ⟨9, 10⟩⟩ (.atom ⟨"b", ⟨12, 13⟩⟩),
    .terminal ⟨"Z", ⟨14, 15⟩⟩ (.reference ⟨"X", ⟨17, 18⟩⟩)]
  rules := [⟨⟨"S", ⟨19, 20⟩⟩, [], .name ⟨"X", ⟨22, 23⟩⟩⟩]

/-- Another document with the parent `A`, which has a terminal `X` as well. -/
def precedenceHistory : List Registry.Event :=
  [.analysis "hime" ⟨1⟩ "A[X]"
    (.ok ⟨[⟨⟨"A", ⟨0, 1⟩⟩, [], [], [.terminal ⟨"X", ⟨2, 3⟩⟩ (.atom ⟨"x", ⟨2, 3⟩⟩)], []⟩]⟩)]

theorem precedenceGrammar_hasTerminal : precedenceGrammar.HasTerminal "X" :=
  ⟨_, _, .here (.tail _ (.head _)), rfl⟩

theorem exists_analyze_precedence :
    ∃ a r, analyze "hime" (Registry.after precedenceHistory) ⟨0⟩ precedenceText
      ⟨[precedenceGrammar]⟩ = (.ok a, r) := by
  have hok : (analyze "hime" (Registry.after precedenceHistory) ⟨0⟩ precedenceText
      ⟨[precedenceGrammar]⟩).1.toOption.any (fun _ => true) = true := by
    decide +kernel
  obtain ⟨a, r, houtcome, -⟩ := exists_eq_ok_of_any hok
  exact ⟨a, r, houtcome⟩

/-- `Z` and `S` refer to the terminal of their own grammar, though the parent has one too. -/
theorem prefersTerminal_of_analyze_own :
    let tree : Tree := ⟨[precedenceGrammar]⟩
    ∃ a r, analyze "hime" (Registry.after precedenceHistory) ⟨0⟩ precedenceText tree = (.ok a, r) ∧
      tree.grammars = [] ++ precedenceGrammar :: [] ∧ precedenceGrammar.HasTerminal "X" ∧
      precedenceGrammar.PrefersTerminal
        (analysisStart "hime" (Registry.after precedenceHistory) ⟨0⟩ precedenceText)
        r a [] "X" := by
  intro tree
  obtain ⟨a, r, h⟩ := exists_analyze_precedence
  have hg : tree.grammars = [] ++ precedenceGrammar :: [] := rfl
  exact ⟨a, r, h, hg, precedenceGrammar_hasTerminal,
    prefersTerminal_of_analyze h hg precedenceGrammar_hasTerminal⟩

/-- **A definition ahead of the declaration is left with the terminal of the parent**: the name
in the definition of `Y` is recorded as a reference to `A.X`, though `B` has a terminal `X`. -/
theorem exists_recordsAs_parent :
    let tree : Tree := ⟨[precedenceGrammar]⟩
    ∃ a r, analyze "hime" (Registry.after precedenceHistory) ⟨0⟩ precedenceText tree = (.ok a, r) ∧
      tree.grammars = [] ++ precedenceGrammar :: [] ∧ precedenceGrammar.HasTerminal "X" ∧
      ∃ l ∈ precedenceGrammar.lexicalLeaves, l.token.text = "X" ∧ l.owner.text ≠ "X" ∧
        RecordsAs (analysisStart "hime" (Registry.after precedenceHistory) ⟨0⟩ precedenceText) r a
          (([] : List Grammar).flatMap (·.occurrences) ++
            (precedenceGrammar.prologue ++ l.precedents precedenceGrammar.name.text))
          (l.occurrence precedenceGrammar.name.text) "A.X" ∧
        "A.X" ≠ qualify precedenceGrammar.name.text "X" := by
  intro tree
  obtain ⟨a, r, h⟩ := exists_analyze_precedence
  have hg : tree.grammars = [] ++ precedenceGrammar :: [] := rfl
  let l : LexicalLeaf := ⟨[], ⟨"Y", ⟨4, 5⟩⟩, [], ⟨"X", ⟨7, 8⟩⟩⟩
  have hl : l ∈ precedenceGrammar.lexicalLeaves := .head _
  obtain ⟨p, hp, hrecords⟩ := exists_recordsAs_lexical_iff h hg hl
  have hkind : p.registry.kindNamed? "A.X" = some .terminal := by
    have hall : ((analysisStart "hime" (Registry.after precedenceHistory) ⟨0⟩
        precedenceText).walk (([] : List Grammar).flatMap (·.occurrences) ++
          (precedenceGrammar.prologue ++ l.precedents precedenceGrammar.name.text))).toOption.any
        (fun p => p.registry.kindNamed? "A.X" = some .terminal) = true := by
      decide +kernel
    rw [hp] at hall
    exact of_decide_eq_true hall
  have hown : l.token.text ≠ l.owner.text := by decide
  have hdeclared : l.token.text ∉ l.terminals := by decide
  have hparents : precedenceGrammar.parents = [] ++ ⟨"A", ⟨2, 3⟩⟩ :: [] := rfl
  have hresolves : precedenceGrammar.ResolvesLexical p.registry.kindNamed? l (.symbol "A.X") :=
    .inherited hown hdeclared hparents (by simp) hkind
  exact ⟨a, r, h, hg, precedenceGrammar_hasTerminal, l, hl, rfl, by decide,
    (hrecords _).mpr hresolves, by decide⟩

end GrammarIndex
