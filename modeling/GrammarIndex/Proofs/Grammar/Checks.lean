import GrammarIndex.Proofs.Grammar.Declarations
import GrammarIndex.Proofs.Grammar.Leaves

/-!
# The checks of a tree

A tree comes from a parser, and its tokens claim to be pieces of a text.  Those that name
something are checked before anything is made of them: their spans have to lie in the text, and
a literal that stands for a name has to be quoted.  All the other tokens are never looked at.

## Main definitions

* `Check`, `Tree.checks` — what is checked in a document, in order.
* `Occurrence.check` — the check of an occurrence.
* `Tree.mapUnchecked` — the tree with all tokens replaced that are never checked.

## Main results

* `Tree.checks_eq` — **every occurrence is checked, and nothing else.**
* `Tree.occurrences_mapUnchecked` — **what is never checked is never looked at.**
-/

namespace GrammarIndex

/-! ### What is checked -/

/-- Something that is checked in a document. -/
inductive Check where
  /-- A name, as it is written. -/
  | name (token : Token)
  /-- A quoted literal that stands for a name. -/
  | literal (token : Token)
  deriving DecidableEq, Repr

/-- The checks of a declaration in the terminals section: its name, and the terminals that its
definition mentions. -/
def Declaration.checks (e : Declaration) : List Check := .name e.name :: e.uses.map .name

/-- The check of a leaf. -/
def Leaf.check : Leaf → Check
  | name _ t => .name t
  | contextSwitch t => .name t
  | action t => .name t
  | virtual t => .literal t
  | axiomValue t => .literal t
  | separatorValue t => .literal t

/-- The checks of a rule but for its name: the parameters, and then the body. -/
def Rule.checks (rule : Rule) : List Check :=
  rule.parameters.map .name ++ (rule.body.leaves rule).map (·.check)

/-- The checks of a grammar: its name, its parents, the terminals section, the names of all
rules, rule by rule the parameters and the body, and the options that name a symbol. -/
def Grammar.checks (g : Grammar) : List Check :=
  .name g.name ::
    (g.parents.map .name ++
      g.declarations.flatMap (·.checks) ++
      g.rules.map (fun rule => .name rule.name) ++
      g.rules.flatMap (·.checks) ++
      (g.options.filterMap (·.leaf?)).map (·.check))

/-- The checks of a document. -/
def Tree.checks (tree : Tree) : List Check := tree.grammars.flatMap (·.checks)

/-! ### Occurrences are checked -/

/-- The check of an occurrence. -/
def Occurrence.check (o : Occurrence) : Check :=
  if o.role.isLiteral then .literal o.token else .name o.token

theorem Leaf.check_occurrence (l : Leaf) (grammar : String) :
    (l.occurrence grammar).check = l.check := by
  cases l <;> rfl

theorem Declaration.map_check (e : Declaration) (grammar : String) :
    (e.occurrences grammar).map (·.check) = e.checks := by
  rw [occurrences, checks, List.map_cons, List.map_map]
  cases e <;> rfl

theorem Grammar.map_check_lexicon (g : Grammar) :
    g.lexicon.map (·.check) = g.declarations.flatMap (·.checks) := by
  rw [← g.flatMap_declarations, List.map_flatMap]
  refine List.flatMap_congr fun e _ => ?_
  exact e.map_check g.name.text

theorem Rule.map_check (rule : Rule) (grammar : String) :
    (rule.occurrences grammar).map (·.check) = rule.checks := by
  rw [occurrences, checks, List.map_append, List.map_map, ← RuleExpr.map_leaves, List.map_map,
    List.map_map]
  refine congrArg _ (List.map_congr_left fun l _ => ?_)
  exact l.check_occurrence grammar

theorem Setting.map_check (setting : Setting) (grammar : String) :
    (setting.occurrences grammar).map (·.check) = (setting.leaf?.map (·.check)).toList := by
  unfold occurrences leaf?
  split
  · rfl
  · split <;> rfl

theorem Grammar.checks_eq (g : Grammar) : g.checks = g.occurrences.map (·.check) := by
  have hrules : (g.rules.flatMap (·.occurrences g.name.text)).map (·.check) =
      g.rules.flatMap (·.checks) := by
    rw [List.map_flatMap]
    exact List.flatMap_congr fun rule _ => rule.map_check g.name.text
  have hoptions : (g.options.flatMap (·.occurrences g.name.text)).map (·.check) =
      (g.options.filterMap (·.leaf?)).map (·.check) := by
    rw [List.map_flatMap, List.map_filterMap, List.filterMap_eq_flatMap_toList]
    exact List.flatMap_congr fun setting _ => setting.map_check g.name.text
  rw [checks, occurrences, List.map_cons, List.map_append, List.map_append, List.map_append,
    List.map_append, hrules, hoptions, ← lexicon, g.map_check_lexicon, List.map_map, List.map_map]
  rfl

/-- **Every occurrence is checked, and nothing else.** -/
theorem Tree.checks_eq (tree : Tree) : tree.checks = tree.occurrences.map (·.check) := by
  rw [checks, occurrences, List.map_flatMap]
  exact List.flatMap_congr fun g _ => g.checks_eq

/-! ### What is never checked -/

mutual

/-- The definition with other texts, classes of characters and wildcards. -/
def LexicalExpr.mapUnchecked (f : Token → Token) : LexicalExpr → LexicalExpr
  | .reference name => .reference name
  | .atom token => .atom (f token)
  | .sequence parts => .sequence (mapUncheckedOfAll f parts)
  | .union parts => .union (mapUncheckedOfAll f parts)
  | .difference left right => .difference (left.mapUnchecked f) (right.mapUnchecked f)
  | .repeated part quantifier => .repeated (part.mapUnchecked f) quantifier

/-- Several definitions with other texts, classes of characters and wildcards. -/
def LexicalExpr.mapUncheckedOfAll (f : Token → Token) : List LexicalExpr → List LexicalExpr
  | [] => []
  | e :: es => e.mapUnchecked f :: mapUncheckedOfAll f es

end

mutual

/-- The entry with other definitions of terminals. -/
def TerminalEntry.mapUnchecked (f : Token → Token) : TerminalEntry → TerminalEntry
  | .context name entries => .context name (mapUncheckedOfAll f entries)
  | .terminal name definition => .terminal name (definition.mapUnchecked f)

/-- Several entries with other definitions of terminals. -/
def TerminalEntry.mapUncheckedOfAll (f : Token → Token) :
    List TerminalEntry → List TerminalEntry
  | [] => []
  | e :: es => e.mapUnchecked f :: mapUncheckedOfAll f es

end

mutual

/-- The rule body with other texts that are matched as they stand. -/
def RuleExpr.mapUnchecked (f : Token → Token) : RuleExpr → RuleExpr
  | .contextSwitch t body => .contextSwitch t (body.mapUnchecked f)
  | .action t => .action t
  | .virtual t => .virtual t
  | .name t => .name t
  | .literal t => .literal (f t)
  | .call t arguments => .call t (mapUncheckedOfAll f arguments)
  | .sequence parts => .sequence (mapUncheckedOfAll f parts)
  | .alternation parts => .alternation (mapUncheckedOfAll f parts)
  | .repeated part quantifier => .repeated (part.mapUnchecked f) quantifier
  | .tree part treeAction => .tree (part.mapUnchecked f) treeAction

/-- Several rule bodies with other texts that are matched as they stand. -/
def RuleExpr.mapUncheckedOfAll (f : Token → Token) : List RuleExpr → List RuleExpr
  | [] => []
  | e :: es => e.mapUnchecked f :: mapUncheckedOfAll f es

end

/-- The rule with another body. -/
def Rule.mapUnchecked (f : Token → Token) (rule : Rule) : Rule :=
  { rule with body := rule.body.mapUnchecked f }

/-- The option with its name in another place, and with another value unless it names a
symbol. -/
def Setting.mapUnchecked (f : Token → Token) (setting : Setting) : Setting where
  name := { setting.name with span := (f setting.name).span }
  value := if setting.leaf?.isSome then setting.value else f setting.value

/-- The grammar with all tokens replaced that are never checked. -/
def Grammar.mapUnchecked (f : Token → Token) (g : Grammar) : Grammar :=
  { g with
    options := g.options.map (·.mapUnchecked f)
    terminals := g.terminals.map (·.mapUnchecked f)
    rules := g.rules.map (·.mapUnchecked f) }

/-- The document with all tokens replaced that are never checked. -/
def Tree.mapUnchecked (f : Token → Token) (tree : Tree) : Tree where
  grammars := tree.grammars.map (·.mapUnchecked f)

section

variable (f : Token → Token)

mutual

theorem LexicalExpr.uses_mapUnchecked : ∀ e : LexicalExpr, (e.mapUnchecked f).uses = e.uses
  | .reference _ => by
    rw [mapUnchecked]
  | .atom _ => by
    rw [mapUnchecked, uses, uses]
  | .sequence parts | .union parts => by
    rw [mapUnchecked, uses, uses, LexicalExpr.usesOfAll_mapUnchecked parts]
  | .difference left right => by
    rw [mapUnchecked, uses, uses, LexicalExpr.uses_mapUnchecked left,
      LexicalExpr.uses_mapUnchecked right]
  | .repeated part _ => by
    rw [mapUnchecked, uses, uses, LexicalExpr.uses_mapUnchecked part]

theorem LexicalExpr.usesOfAll_mapUnchecked :
    ∀ es : List LexicalExpr, usesOfAll (mapUncheckedOfAll f es) = usesOfAll es
  | [] => by
    rw [mapUncheckedOfAll]
  | e :: es => by
    rw [mapUncheckedOfAll, usesOfAll, usesOfAll, LexicalExpr.uses_mapUnchecked e,
      LexicalExpr.usesOfAll_mapUnchecked es]

end

mutual

theorem TerminalEntry.occurrences_mapUnchecked (grammar : String) : ∀ e : TerminalEntry,
    (e.mapUnchecked f).occurrences grammar = e.occurrences grammar
  | .context name entries => by
    rw [mapUnchecked, occurrences, occurrences,
      TerminalEntry.occurrencesOfAll_mapUnchecked grammar entries]
  | .terminal name definition => by
    rw [mapUnchecked, occurrences, occurrences, definition.uses_mapUnchecked f]

theorem TerminalEntry.occurrencesOfAll_mapUnchecked (grammar : String) :
    ∀ es : List TerminalEntry,
      occurrencesOfAll grammar (mapUncheckedOfAll f es) = occurrencesOfAll grammar es
  | [] => by
    rw [mapUncheckedOfAll]
  | e :: es => by
    rw [mapUncheckedOfAll, occurrencesOfAll, occurrencesOfAll,
      TerminalEntry.occurrences_mapUnchecked grammar e,
      TerminalEntry.occurrencesOfAll_mapUnchecked grammar es]

end

mutual

theorem RuleExpr.uses_mapUnchecked (bare : Use) :
    ∀ e : RuleExpr, (e.mapUnchecked f).uses bare = e.uses bare
  | .contextSwitch _ body => by
    rw [mapUnchecked, uses, uses, RuleExpr.uses_mapUnchecked bare body]
  | .action _ | .virtual _ | .name _ => by
    rw [mapUnchecked]
  | .literal _ => by
    rw [mapUnchecked, uses, uses]
  | .call _ arguments => by
    rw [mapUnchecked, uses, uses, RuleExpr.usesOfAll_mapUnchecked bare arguments]
  | .sequence parts | .alternation parts => by
    rw [mapUnchecked, uses, uses, RuleExpr.usesOfAll_mapUnchecked bare parts]
  | .repeated part _ | .tree part _ => by
    rw [mapUnchecked, uses, uses, RuleExpr.uses_mapUnchecked bare part]

theorem RuleExpr.usesOfAll_mapUnchecked (bare : Use) :
    ∀ es : List RuleExpr, usesOfAll bare (mapUncheckedOfAll f es) = usesOfAll bare es
  | [] => by
    rw [mapUncheckedOfAll]
  | e :: es => by
    rw [mapUncheckedOfAll, usesOfAll, usesOfAll, RuleExpr.uses_mapUnchecked bare e,
      RuleExpr.usesOfAll_mapUnchecked bare es]

end

theorem Rule.occurrences_mapUnchecked (rule : Rule) (grammar : String) :
    (rule.mapUnchecked f).occurrences grammar = rule.occurrences grammar :=
  congrArg (fun us : List (Use × Token) =>
    rule.parameters.map (fun p => (⟨grammar, .parameter rule.name.text, p⟩ : Occurrence)) ++
      us.map fun u => ⟨grammar, .use u.1, u.2⟩) (rule.body.uses_mapUnchecked f rule.bareUse)

/-- Which option it is depends on the text of its name alone. -/
theorem Setting.occurrences_mapUnchecked (setting : Setting) (grammar : String) :
    (setting.mapUnchecked f).occurrences grammar = setting.occurrences grammar := by
  unfold occurrences mapUnchecked leaf?
  by_cases hstart : setting.name.text = axiomOption
  · simp only [if_pos hstart, Option.isSome_some, if_true]
  · by_cases hseparator : setting.name.text = separatorOption
    · simp only [if_neg hstart, if_pos hseparator, Option.isSome_some, if_true]
    · simp only [if_neg hstart, if_neg hseparator]

theorem Grammar.occurrences_mapUnchecked (g : Grammar) :
    (g.mapUnchecked f).occurrences = g.occurrences := by
  have hterminals : (g.terminals.map (·.mapUnchecked f)).flatMap (·.occurrences g.name.text) =
      g.terminals.flatMap (·.occurrences g.name.text) := by
    rw [List.flatMap_map]
    exact List.flatMap_congr fun e _ => e.occurrences_mapUnchecked f g.name.text
  have hnames : (g.rules.map (·.mapUnchecked f)).map (fun rule =>
      (⟨g.name.text, .nonterminal, rule.name⟩ : Occurrence)) =
        g.rules.map fun rule => ⟨g.name.text, .nonterminal, rule.name⟩ :=
    List.map_map
  have hrules : (g.rules.map (·.mapUnchecked f)).flatMap (·.occurrences g.name.text) =
      g.rules.flatMap (·.occurrences g.name.text) := by
    rw [List.flatMap_map]
    exact List.flatMap_congr fun rule _ => rule.occurrences_mapUnchecked f g.name.text
  have hoptions : (g.options.map (·.mapUnchecked f)).flatMap (·.occurrences g.name.text) =
      g.options.flatMap (·.occurrences g.name.text) := by
    rw [List.flatMap_map]
    exact List.flatMap_congr fun setting _ => setting.occurrences_mapUnchecked f g.name.text
  simp only [occurrences, mapUnchecked, hterminals, hnames, hrules, hoptions]

/-- **What is never checked is never looked at**: the occurrences are the same without it. -/
theorem Tree.occurrences_mapUnchecked (tree : Tree) :
    (tree.mapUnchecked f).occurrences = tree.occurrences := by
  rw [mapUnchecked, occurrences, occurrences, List.flatMap_map]
  exact List.flatMap_congr fun g _ => g.occurrences_mapUnchecked f

end

end GrammarIndex
