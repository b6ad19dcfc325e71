import GrammarIndex.Grammar.Tree

/-!
# Occurrences of names

Every token of a grammar tree that names something is an occurrence: it has a
role, and it belongs to a grammar.  An analysis looks at the occurrences of a
document one after the other, in this order:

* the grammar, and its parents;
* the terminals section in source order, the entries of a context right after its
  name, and the names in a definition right after the terminal;
* the names of all rules, so that a rule may mention a later one;
* rule by rule, the parameters and then the body in source order;
* the options that name a symbol.

## Main definitions

* `Use`, `Role`, `Occurrence` — what a token names, and where.
* `Grammar.occurrences`, `Tree.occurrences` — all occurrences, in order.
-/

namespace GrammarIndex

/-- How a token uses a name that is declared somewhere else. -/
inductive Use where
  /-- It names a parent of the grammar. -/
  | parent
  /-- It names a terminal in the definition of the terminal `owner`. -/
  | lexical (owner : String)
  /-- It names the lexical context in which a part of a rule is matched. -/
  | context
  /-- It names a semantic action in a rule. -/
  | action
  /-- It is a virtual symbol in a rule. -/
  | virtual
  /-- It is a name in the body of the rule `rule`, which has these parameters. -/
  | symbol (rule : String) (parameters : List String)
  /-- It is the value of the option that names the start symbol. -/
  | axiomValue
  /-- It is the value of the option that names the separator. -/
  | separatorValue
  deriving DecidableEq, Repr

/-- What a token names at the place where it stands. -/
inductive Role where
  /-- The grammar that is declared. -/
  | grammar
  /-- The lexical context that is declared. -/
  | context
  /-- The terminal that is declared. -/
  | terminal
  /-- The variable that a rule declares. -/
  | nonterminal
  /-- A parameter of the template rule `rule`. -/
  | parameter (rule : String)
  /-- Something that is declared somewhere else. -/
  | use (use : Use)
  deriving DecidableEq, Repr

/-- The token is a quoted literal, and the name is what it stands for. -/
def Role.isLiteral : Role → Bool
  | use .virtual => true
  | use .axiomValue => true
  | use .separatorValue => true
  | _ => false

/-- A token that names something. -/
structure Occurrence where
  /-- The name of the grammar that the token belongs to. -/
  grammar : String
  /-- What the token names. -/
  role : Role
  /-- The token. -/
  token : Token
  deriving DecidableEq, Repr

/-! ### The terminals section -/

mutual

/-- The terminals that a definition mentions, from left to right. -/
def LexicalExpr.uses : LexicalExpr → List Token
  | .reference name => [name]
  | .atom _ => []
  | .sequence parts => usesOfAll parts
  | .union parts => usesOfAll parts
  | .difference left right => left.uses ++ right.uses
  | .repeated part _ => part.uses

/-- The terminals that several definitions mention, from left to right. -/
def LexicalExpr.usesOfAll : List LexicalExpr → List Token
  | [] => []
  | e :: es => e.uses ++ usesOfAll es

end

theorem LexicalExpr.usesOfAll_eq_flatMap (es : List LexicalExpr) :
    usesOfAll es = es.flatMap uses := by
  induction es with
  | nil => rfl
  | cons e es ih => rw [usesOfAll, ih, List.flatMap_cons]

mutual

/-- The occurrences in an entry of the terminals section of `grammar`. -/
def TerminalEntry.occurrences (grammar : String) : TerminalEntry → List Occurrence
  | .context name entries => ⟨grammar, .context, name⟩ :: occurrencesOfAll grammar entries
  | .terminal name definition =>
    ⟨grammar, .terminal, name⟩ ::
      definition.uses.map fun use => ⟨grammar, .use (.lexical name.text), use⟩

/-- The occurrences in several entries of the terminals section of `grammar`. -/
def TerminalEntry.occurrencesOfAll (grammar : String) : List TerminalEntry → List Occurrence
  | [] => []
  | e :: es => e.occurrences grammar ++ occurrencesOfAll grammar es

end

theorem TerminalEntry.occurrencesOfAll_eq_flatMap (grammar : String) (es : List TerminalEntry) :
    occurrencesOfAll grammar es = es.flatMap (occurrences grammar) := by
  induction es with
  | nil => rfl
  | cons e es ih => rw [occurrencesOfAll, ih, List.flatMap_cons]

/-! ### The rules section -/

mutual

/-- The tokens of a rule body that use a name, with how they use it; a bare name
is used as `bare`. -/
def RuleExpr.uses (bare : Use) : RuleExpr → List (Use × Token)
  | .contextSwitch t body => (.context, t) :: body.uses bare
  | .action t => [(.action, t)]
  | .virtual t => [(.virtual, t)]
  | .name t => [(bare, t)]
  | .literal _ => []
  | .call t arguments => (bare, t) :: usesOfAll bare arguments
  | .sequence parts => usesOfAll bare parts
  | .alternation parts => usesOfAll bare parts
  | .repeated part _ => part.uses bare
  | .tree part _ => part.uses bare

/-- The tokens of several rule bodies that use a name, with how they use it. -/
def RuleExpr.usesOfAll (bare : Use) : List RuleExpr → List (Use × Token)
  | [] => []
  | e :: es => e.uses bare ++ usesOfAll bare es

end

theorem RuleExpr.usesOfAll_eq_flatMap (bare : Use) (es : List RuleExpr) :
    usesOfAll bare es = es.flatMap (uses bare) := by
  induction es with
  | nil => rfl
  | cons e es ih => rw [usesOfAll, ih, List.flatMap_cons]

/-- How a bare name is used in the body of a rule. -/
def Rule.bareUse (rule : Rule) : Use :=
  .symbol rule.name.text (rule.parameters.map (·.text))

/-- The occurrences in the parameters and the body of a rule of `grammar`. -/
def Rule.occurrences (grammar : String) (rule : Rule) : List Occurrence :=
  rule.parameters.map (fun p => ⟨grammar, .parameter rule.name.text, p⟩) ++
    (rule.body.uses rule.bareUse).map fun u => ⟨grammar, .use u.1, u.2⟩

/-! ### Options -/

/-- The option that names the start symbol. -/
def axiomOption : String := "Axiom"

/-- The option that names the terminal skipped between tokens. -/
def separatorOption : String := "Separator"

/-- The occurrence in an option of `grammar`: only two options name a symbol. -/
def Setting.occurrences (grammar : String) (setting : Setting) : List Occurrence :=
  if setting.name.text = axiomOption then [⟨grammar, .use .axiomValue, setting.value⟩]
  else if setting.name.text = separatorOption then
    [⟨grammar, .use .separatorValue, setting.value⟩]
  else []

/-! ### Grammars and documents -/

/-- The occurrences in a grammar, in the order in which they are looked at. -/
def Grammar.occurrences (g : Grammar) : List Occurrence :=
  let name := g.name.text
  ⟨name, .grammar, g.name⟩ ::
    (g.parents.map (fun p => ⟨name, .use .parent, p⟩) ++
      g.terminals.flatMap (·.occurrences name) ++
      g.rules.map (fun rule => ⟨name, .nonterminal, rule.name⟩) ++
      g.rules.flatMap (·.occurrences name) ++
      g.options.flatMap (·.occurrences name))

/-- The occurrences in a document, in the order in which they are looked at. -/
def Tree.occurrences (tree : Tree) : List Occurrence := tree.grammars.flatMap (·.occurrences)

end GrammarIndex
