import GrammarIndex.Text.LineIndex

/-!
# Grammar trees

What a parser makes of a grammar document.  A document declares grammars; a
grammar has parents, options, terminals — possibly grouped in lexical contexts —
and rules, some of them templates with parameters.

## Main definitions

* `Token` — a piece of the text that means something.
* `LexicalExpr`, `TerminalEntry` — the terminals section.
* `RuleExpr`, `Rule` — the rules section.
* `Grammar`, `Tree` — a grammar, and a whole document.
* `ParseError` — why there is no tree.
-/

namespace GrammarIndex

/-- A name or a literal as written, with its span. -/
structure Token where
  /-- The text of the token. -/
  text : String
  /-- Where the token stands. -/
  span : Span
  deriving DecidableEq, Repr

/-- How often a part may repeat. -/
inductive Quantifier where
  /-- Once or not at all. -/
  | optional
  /-- Any number of times. -/
  | zeroOrMore
  /-- At least once. -/
  | oneOrMore
  /-- At least `least` times, and at most `most` times if a limit is given. -/
  | bounded (least : Nat) (most : Option Nat)
  deriving DecidableEq, Repr

/-- What a terminal matches. -/
inductive LexicalExpr where
  /-- Another terminal, by name. -/
  | reference (name : Token)
  /-- A text, a class of characters or a wildcard. -/
  | atom (token : Token)
  /-- One part after the other. -/
  | sequence (parts : List LexicalExpr)
  /-- One part or the other. -/
  | union (parts : List LexicalExpr)
  /-- What the left part matches and the right part does not. -/
  | difference (left right : LexicalExpr)
  /-- A part, several times over. -/
  | repeated (part : LexicalExpr) (quantifier : Quantifier)
  deriving Repr

/-- An entry of the terminals section. -/
inductive TerminalEntry where
  /-- A lexical context with entries of its own. -/
  | context (name : Token) (entries : List TerminalEntry)
  /-- A terminal with its definition. -/
  | terminal (name : Token) (definition : LexicalExpr)
  deriving Repr

/-- What is done to the syntax tree of a matched part. -/
inductive TreeAction where
  /-- The node takes the place of its parent. -/
  | promote
  /-- The node is left out. -/
  | drop
  deriving DecidableEq, Repr

/-- The body of a rule. -/
inductive RuleExpr where
  /-- A part that is matched in a lexical context. -/
  | contextSwitch (context : Token) (body : RuleExpr)
  /-- A semantic action. -/
  | action (name : Token)
  /-- A virtual symbol, written as a quoted literal. -/
  | virtual (literal : Token)
  /-- A bare name. -/
  | name (name : Token)
  /-- A text that is matched as it stands. -/
  | literal (token : Token)
  /-- A template rule with arguments for its parameters. -/
  | call (callee : Token) (arguments : List RuleExpr)
  /-- One part after the other. -/
  | sequence (parts : List RuleExpr)
  /-- One part or the other. -/
  | alternation (parts : List RuleExpr)
  /-- A part, several times over. -/
  | repeated (part : RuleExpr) (quantifier : Quantifier)
  /-- A part with something done to its syntax tree. -/
  | tree (part : RuleExpr) (action : TreeAction)
  deriving Repr

/-- A rule, which defines a variable.  A rule with parameters is a template. -/
structure Rule where
  /-- The variable. -/
  name : Token
  /-- The parameters of the template. -/
  parameters : List Token
  /-- What the variable stands for. -/
  body : RuleExpr
  deriving Repr

/-- An option of a grammar. -/
structure Setting where
  /-- The name of the option. -/
  name : Token
  /-- Its value, as a quoted literal. -/
  value : Token
  deriving DecidableEq, Repr

/-- A grammar. -/
structure Grammar where
  /-- Its name. -/
  name : Token
  /-- The grammars that it inherits from, in order. -/
  parents : List Token
  /-- Its options. -/
  options : List Setting
  /-- Its terminals section. -/
  terminals : List TerminalEntry
  /-- Its rules section. -/
  rules : List Rule
  deriving Repr

/-- The tree of a document: the grammars that it declares. -/
structure Tree where
  /-- The grammars, in order. -/
  grammars : List Grammar
  deriving Repr

/-! ### Failures to parse -/

/-- Why there is no tree. -/
inductive ParseError where
  /-- The text is no grammar document. -/
  | unexpected (message : String) (span : Span)
  /-- The text could not be read. -/
  | unreadable (reason : String)
  deriving DecidableEq, Repr

/-- The failure as people read it. -/
def ParseError.message : ParseError → String
  | unexpected message span => s!"syntax error at {span.display}: {message}"
  | unreadable reason => s!"failed to read grammar source: {reason}"

end GrammarIndex
