import GrammarIndex.Grammar.Occurrence

/-!
# The tokens of a tree

A tree is made of tokens, and each of them should be a piece of the text that the tree
was parsed from.  What changes the text of tokens and nothing else leaves the shape of
the tree alone.

## Main definitions

* `Tree.tokens` — all tokens of a tree, whether they name something or not.
* `Tree.mapTokens` — the tree with every token replaced by another.
* `Token.StandsIn`, `Tree.Fits` — the token is a piece of the text, and the tree is made
  of pieces that do not overlap.
-/

namespace GrammarIndex

/-! ### All tokens -/

mutual

/-- The tokens of a definition, from left to right. -/
def LexicalExpr.tokens : LexicalExpr → List Token
  | .reference name => [name]
  | .atom token => [token]
  | .sequence parts => tokensOfAll parts
  | .union parts => tokensOfAll parts
  | .difference left right => left.tokens ++ right.tokens
  | .repeated part _ => part.tokens

/-- The tokens of several definitions, from left to right. -/
def LexicalExpr.tokensOfAll : List LexicalExpr → List Token
  | [] => []
  | e :: es => e.tokens ++ tokensOfAll es

end

mutual

/-- The tokens of an entry of the terminals section. -/
def TerminalEntry.tokens : TerminalEntry → List Token
  | .context name entries => name :: tokensOfAll entries
  | .terminal name definition => name :: definition.tokens

/-- The tokens of several entries of the terminals section. -/
def TerminalEntry.tokensOfAll : List TerminalEntry → List Token
  | [] => []
  | e :: es => e.tokens ++ tokensOfAll es

end

mutual

/-- The tokens of a rule body, from left to right. -/
def RuleExpr.tokens : RuleExpr → List Token
  | .contextSwitch t body => t :: body.tokens
  | .action t => [t]
  | .virtual t => [t]
  | .name t => [t]
  | .literal t => [t]
  | .call t arguments => t :: tokensOfAll arguments
  | .sequence parts => tokensOfAll parts
  | .alternation parts => tokensOfAll parts
  | .repeated part _ => part.tokens
  | .tree part _ => part.tokens

/-- The tokens of several rule bodies, from left to right. -/
def RuleExpr.tokensOfAll : List RuleExpr → List Token
  | [] => []
  | e :: es => e.tokens ++ tokensOfAll es

end

/-- The tokens of a grammar: the names of its options, and then all others in the order in
which an analysis comes to them. -/
def Grammar.tokens (g : Grammar) : List Token :=
  g.options.map (·.name) ++
    g.name ::
      (g.parents ++
        g.terminals.flatMap (·.tokens) ++
        g.rules.map (·.name) ++
        g.rules.flatMap (fun rule => rule.parameters ++ rule.body.tokens) ++
        g.options.map (·.value))

/-- The tokens of a document. -/
def Tree.tokens (tree : Tree) : List Token := tree.grammars.flatMap (·.tokens)

/-! ### Other tokens in the same places -/

mutual

/-- The definition with every token replaced. -/
def LexicalExpr.mapTokens (f : Token → Token) : LexicalExpr → LexicalExpr
  | .reference name => .reference (f name)
  | .atom token => .atom (f token)
  | .sequence parts => .sequence (mapTokensOfAll f parts)
  | .union parts => .union (mapTokensOfAll f parts)
  | .difference left right => .difference (left.mapTokens f) (right.mapTokens f)
  | .repeated part quantifier => .repeated (part.mapTokens f) quantifier

/-- Several definitions with every token replaced. -/
def LexicalExpr.mapTokensOfAll (f : Token → Token) : List LexicalExpr → List LexicalExpr
  | [] => []
  | e :: es => e.mapTokens f :: mapTokensOfAll f es

end

mutual

/-- The entry of the terminals section with every token replaced. -/
def TerminalEntry.mapTokens (f : Token → Token) : TerminalEntry → TerminalEntry
  | .context name entries => .context (f name) (mapTokensOfAll f entries)
  | .terminal name definition => .terminal (f name) (definition.mapTokens f)

/-- Several entries of the terminals section with every token replaced. -/
def TerminalEntry.mapTokensOfAll (f : Token → Token) : List TerminalEntry → List TerminalEntry
  | [] => []
  | e :: es => e.mapTokens f :: mapTokensOfAll f es

end

mutual

/-- The rule body with every token replaced. -/
def RuleExpr.mapTokens (f : Token → Token) : RuleExpr → RuleExpr
  | .contextSwitch t body => .contextSwitch (f t) (body.mapTokens f)
  | .action t => .action (f t)
  | .virtual t => .virtual (f t)
  | .name t => .name (f t)
  | .literal t => .literal (f t)
  | .call t arguments => .call (f t) (mapTokensOfAll f arguments)
  | .sequence parts => .sequence (mapTokensOfAll f parts)
  | .alternation parts => .alternation (mapTokensOfAll f parts)
  | .repeated part quantifier => .repeated (part.mapTokens f) quantifier
  | .tree part treeAction => .tree (part.mapTokens f) treeAction

/-- Several rule bodies with every token replaced. -/
def RuleExpr.mapTokensOfAll (f : Token → Token) : List RuleExpr → List RuleExpr
  | [] => []
  | e :: es => e.mapTokens f :: mapTokensOfAll f es

end

/-- The rule with every token replaced. -/
def Rule.mapTokens (f : Token → Token) (rule : Rule) : Rule where
  name := f rule.name
  parameters := rule.parameters.map f
  body := rule.body.mapTokens f

/-- The option with every token replaced. -/
def Setting.mapTokens (f : Token → Token) (setting : Setting) : Setting where
  name := f setting.name
  value := f setting.value

/-- The grammar with every token replaced. -/
def Grammar.mapTokens (f : Token → Token) (g : Grammar) : Grammar where
  name := f g.name
  parents := g.parents.map f
  options := g.options.map (·.mapTokens f)
  terminals := g.terminals.map (·.mapTokens f)
  rules := g.rules.map (·.mapTokens f)

/-- The tree with every token replaced by another, in the same place. -/
def Tree.mapTokens (f : Token → Token) (tree : Tree) : Tree where
  grammars := tree.grammars.map (·.mapTokens f)

/-! ### Tokens in a text -/

/-- One span ends where the other begins, or before. -/
def Span.Apart (s s' : Span) : Prop := s.stop ≤ s'.start ∨ s'.stop ≤ s.start

/-- The token is the piece of the text that its span tells, and not an empty one.  Offsets
are words. -/
structure Token.StandsIn (text : String) (t : Token) : Prop where
  /-- The text of the token comes after as many bytes as its span starts with, and is as
  long as the span. -/
  at_span : ∃ before after : String, text = before ++ t.text ++ after ∧
    t.span = ⟨before.utf8ByteSize, before.utf8ByteSize + t.text.utf8ByteSize⟩
  /-- The span is not empty. -/
  nonempty : t.span.start < t.span.stop
  /-- Its end is a word. -/
  word : t.span.stop < wordBound

/-- The tree is made of pieces of the text that do not overlap. -/
structure Tree.Fits (text : String) (tree : Tree) : Prop where
  /-- Every token is a piece of the text. -/
  standsIn : ∀ t ∈ tree.tokens, t.StandsIn text
  /-- No two of them overlap. -/
  apart : tree.tokens.Pairwise fun t u => t.span.Apart u.span

end GrammarIndex
