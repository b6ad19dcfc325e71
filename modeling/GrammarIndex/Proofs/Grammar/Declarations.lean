import GrammarIndex.Grammar.Occurrence
import Mathlib.Data.List.Basic

/-!
# The terminals section as a sequence

Contexts group the terminals of a grammar, and may hold other contexts.  The groups say nothing
about what a name stands for: with all of them opened in place, the section is a sequence of
declarations, and what a terminal may refer to depends on its place in that sequence.

## Main definitions

* `LexicalExpr.leaves` — the names in a definition, wherever they stand in it.
* `Declaration`, `Grammar.declarations` — the section with its contexts opened in place.
* `LexicalLeaf`, `Grammar.lexicalLeaves` — the names in the definitions of terminals, each with
  whatever comes before it.

## Main results

* `LexicalExpr.leaves_eq_uses` — an analysis looks at the names in a definition, and in this order.
* `Grammar.flatMap_declarations` — **the section is looked at declaration by declaration.**
* `Grammar.mem_lexicalLeaves_iff` — what comes before a leaf.
-/

namespace GrammarIndex

/-! ### The names in a definition -/

mutual

/-- A definition and all that it is made of, in source order. -/
def LexicalExpr.subexpressions : LexicalExpr → List LexicalExpr
  | .reference name => [.reference name]
  | .atom token => [.atom token]
  | .sequence parts => .sequence parts :: subexpressionsOfAll parts
  | .union parts => .union parts :: subexpressionsOfAll parts
  | .difference left right =>
    .difference left right :: (left.subexpressions ++ right.subexpressions)
  | .repeated part quantifier => .repeated part quantifier :: part.subexpressions

/-- Several definitions and all that they are made of, in source order. -/
def LexicalExpr.subexpressionsOfAll : List LexicalExpr → List LexicalExpr
  | [] => []
  | e :: es => e.subexpressions ++ subexpressionsOfAll es

end

/-- The name of a terminal, if the expression is nothing else. -/
def LexicalExpr.reference? : LexicalExpr → Option Token
  | .reference name => some name
  | _ => none

/-- The names in a definition: of all that it is made of, whatever is the name of a terminal. -/
def LexicalExpr.leaves (e : LexicalExpr) : List Token := e.subexpressions.filterMap (·.reference?)

mutual

theorem LexicalExpr.filterMap_subexpressions : ∀ e : LexicalExpr,
    e.subexpressions.filterMap (·.reference?) = e.uses
  | .reference _ | .atom _ => by
    rw [subexpressions, uses]
    rfl
  | .sequence parts | .union parts => by
    rw [subexpressions, uses, ← LexicalExpr.filterMap_subexpressionsOfAll parts]
    rfl
  | .difference left right => by
    rw [subexpressions, uses, ← LexicalExpr.filterMap_subexpressions left,
      ← LexicalExpr.filterMap_subexpressions right, ← List.filterMap_append]
    rfl
  | .repeated part _ => by
    rw [subexpressions, uses, ← LexicalExpr.filterMap_subexpressions part]
    rfl

theorem LexicalExpr.filterMap_subexpressionsOfAll : ∀ es : List LexicalExpr,
    (subexpressionsOfAll es).filterMap (·.reference?) = usesOfAll es
  | [] => by
    rw [subexpressionsOfAll, usesOfAll]
    rfl
  | e :: es => by
    rw [subexpressionsOfAll, usesOfAll, List.filterMap_append,
      LexicalExpr.filterMap_subexpressions e, LexicalExpr.filterMap_subexpressionsOfAll es]

end

/-- **An analysis looks at the names in a definition**, each once and in source order. -/
theorem LexicalExpr.leaves_eq_uses (e : LexicalExpr) : e.leaves = e.uses :=
  e.filterMap_subexpressions

/-! ### Declarations -/

/-- What the terminals section declares at one place. -/
inductive Declaration where
  /-- A lexical context. -/
  | context (name : Token)
  /-- A terminal with its definition. -/
  | terminal (name : Token) (definition : LexicalExpr)
  deriving Repr

namespace Declaration

/-- The name that is declared. -/
def name : Declaration → Token
  | context t => t
  | terminal t _ => t

/-- The role of that name. -/
def role : Declaration → Role
  | context _ => .context
  | terminal _ _ => .terminal

/-- The names in the definition, in source order. -/
def uses : Declaration → List Token
  | context _ => []
  | terminal _ definition => definition.leaves

/-- The name of a terminal. -/
def terminal? : Declaration → Option String
  | context _ => none
  | terminal t _ => some t.text

/-- The occurrences in a declaration of this grammar. -/
def occurrences (grammar : String) (e : Declaration) : List Occurrence :=
  ⟨grammar, e.role, e.name⟩ ::
    e.uses.map fun use => ⟨grammar, .use (.lexical e.name.text), use⟩

end Declaration

mutual

/-- The declarations in an entry: a context comes before what it holds. -/
def TerminalEntry.declarations : TerminalEntry → List Declaration
  | .context name entries => .context name :: declarationsOfAll entries
  | .terminal name definition => [.terminal name definition]

/-- The declarations in several entries, in source order. -/
def TerminalEntry.declarationsOfAll : List TerminalEntry → List Declaration
  | [] => []
  | e :: es => e.declarations ++ declarationsOfAll es

end

/-- The terminals section with its contexts opened in place. -/
def Grammar.declarations (g : Grammar) : List Declaration :=
  TerminalEntry.declarationsOfAll g.terminals

/-- The occurrences in the terminals section. -/
def Grammar.lexicon (g : Grammar) : List Occurrence :=
  g.terminals.flatMap (·.occurrences g.name.text)

mutual

theorem TerminalEntry.flatMap_declarations (grammar : String) : ∀ e : TerminalEntry,
    e.declarations.flatMap (·.occurrences grammar) = e.occurrences grammar
  | .context name entries => by
    rw [declarations, occurrences, List.flatMap_cons,
      TerminalEntry.flatMap_declarationsOfAll grammar entries]
    rfl
  | .terminal name definition => by
    rw [declarations, occurrences, List.flatMap_singleton, ← definition.leaves_eq_uses]
    rfl

theorem TerminalEntry.flatMap_declarationsOfAll (grammar : String) : ∀ es : List TerminalEntry,
    (declarationsOfAll es).flatMap (·.occurrences grammar) = occurrencesOfAll grammar es
  | [] => by
    rw [declarationsOfAll, occurrencesOfAll, List.flatMap_nil]
  | e :: es => by
    rw [declarationsOfAll, occurrencesOfAll, List.flatMap_append,
      TerminalEntry.flatMap_declarations grammar e,
      TerminalEntry.flatMap_declarationsOfAll grammar es]

end

/-- **The section is looked at declaration by declaration**: the groups make no difference. -/
theorem Grammar.flatMap_declarations (g : Grammar) :
    g.declarations.flatMap (·.occurrences g.name.text) = g.lexicon := by
  rw [declarations, TerminalEntry.flatMap_declarationsOfAll, lexicon,
    TerminalEntry.occurrencesOfAll_eq_flatMap]

/-! ### Leaves of definitions -/

/-- A name in the definition of a terminal, with whatever comes before it in the section. -/
structure LexicalLeaf where
  /-- What is declared before the terminal. -/
  before : List Declaration
  /-- The terminal that is being defined. -/
  owner : Token
  /-- The names in the definition before this one. -/
  earlier : List Token
  /-- The name. -/
  token : Token
  deriving Repr

namespace LexicalLeaf

/-- The leaf as an occurrence in a grammar of this name. -/
def occurrence (grammar : String) (l : LexicalLeaf) : Occurrence :=
  ⟨grammar, .use (.lexical l.owner.text), l.token⟩

/-- The occurrences in the section before the leaf. -/
def precedents (grammar : String) (l : LexicalLeaf) : List Occurrence :=
  l.before.flatMap (·.occurrences grammar) ++
    ⟨grammar, .terminal, l.owner⟩ ::
      l.earlier.map fun use => ⟨grammar, .use (.lexical l.owner.text), use⟩

/-- The terminals that are declared by then, up to the one that is being defined. -/
def terminals (l : LexicalLeaf) : List String :=
  l.before.filterMap (·.terminal?) ++ [l.owner.text]

/-- The leaves for the names `uses` in the definition of a terminal, after the names
`earlier`. -/
def ofUses (before : List Declaration) (owner : Token) (earlier : List Token) :
    List Token → List LexicalLeaf
  | [] => []
  | use :: uses => ⟨before, owner, earlier, use⟩ :: ofUses before owner (earlier ++ [use]) uses

/-- The leaves in several declarations, after the declarations `before`. -/
def ofDeclarations (before : List Declaration) : List Declaration → List LexicalLeaf
  | [] => []
  | e :: es => ofUses before e.name [] e.uses ++ ofDeclarations (before ++ [e]) es

theorem mem_ofUses_iff {before : List Declaration} {owner : Token} {earlier uses : List Token}
    {l : LexicalLeaf} :
    l ∈ ofUses before owner earlier uses ↔ l.before = before ∧ l.owner = owner ∧
      ∃ passed later, uses = passed ++ l.token :: later ∧ l.earlier = earlier ++ passed := by
  induction uses generalizing earlier with
  | nil => simp [ofUses]
  | cons use uses ih =>
    rw [ofUses, List.mem_cons, ih]
    constructor
    · rintro (rfl | ⟨hbefore, howner, passed, later, rfl, hearlier⟩)
      · exact ⟨rfl, rfl, [], uses, rfl, (List.append_nil _).symm⟩
      · exact ⟨hbefore, howner, use :: passed, later, rfl, by rw [hearlier, List.append_assoc]; rfl⟩
    · rintro ⟨hbefore, howner, passed, later, huses, hearlier⟩
      cases passed with
      | nil =>
        obtain ⟨rfl, rfl⟩ := List.cons.inj huses
        refine .inl ?_
        rw [← hbefore, ← howner, ← List.append_nil earlier, ← hearlier]
      | cons _ passed =>
        obtain ⟨rfl, rfl⟩ := List.cons.inj huses
        refine .inr ⟨hbefore, howner, passed, later, rfl, ?_⟩
        rw [hearlier, List.append_assoc, List.singleton_append]

theorem mem_ofDeclarations_iff {before es : List Declaration} {l : LexicalLeaf} :
    l ∈ ofDeclarations before es ↔ ∃ passed definition after later,
      es = passed ++ .terminal l.owner definition :: after ∧ l.before = before ++ passed ∧
        definition.leaves = l.earlier ++ l.token :: later := by
  induction es generalizing before with
  | nil => simp [ofDeclarations]
  | cons e es ih =>
    rw [ofDeclarations, List.mem_append, mem_ofUses_iff, ih]
    constructor
    · rintro (⟨hbefore, howner, passed, later, huses, hearlier⟩ |
        ⟨passed, definition, after, later, rfl, hbefore, huses⟩)
      · cases e with
        | context name => exact absurd huses (by simp [Declaration.uses])
        | terminal name definition =>
          refine ⟨[], definition, es, later, ?_, by rw [hbefore, List.append_nil], ?_⟩
          · rw [howner]
            rfl
          · rw [hearlier]
            exact huses
      · refine ⟨e :: passed, definition, after, later, rfl, ?_, huses⟩
        rw [hbefore, List.append_assoc, List.singleton_append]
    · rintro ⟨passed, definition, after, later, hes, hbefore, huses⟩
      cases passed with
      | nil =>
        obtain ⟨rfl, rfl⟩ := List.cons.inj hes
        exact .inl ⟨by rw [hbefore, List.append_nil], rfl, l.earlier, later, huses, rfl⟩
      | cons _ passed =>
        obtain ⟨rfl, rfl⟩ := List.cons.inj hes
        refine .inr ⟨passed, definition, after, later, rfl, ?_, huses⟩
        rw [hbefore, List.append_assoc, List.singleton_append]

end LexicalLeaf

/-- The names in the definitions of a grammar, in source order. -/
def Grammar.lexicalLeaves (g : Grammar) : List LexicalLeaf :=
  LexicalLeaf.ofDeclarations [] g.declarations

/-- A leaf stands in the definition of a terminal, and before it stands what comes before it in
the section. -/
theorem Grammar.mem_lexicalLeaves_iff {g : Grammar} {l : LexicalLeaf} :
    l ∈ g.lexicalLeaves ↔ ∃ definition after later,
      g.declarations = l.before ++ .terminal l.owner definition :: after ∧
        definition.leaves = l.earlier ++ l.token :: later := by
  rw [lexicalLeaves, LexicalLeaf.mem_ofDeclarations_iff]
  constructor
  · rintro ⟨passed, definition, after, later, hes, hbefore, huses⟩
    rw [List.nil_append] at hbefore
    exact ⟨definition, after, later, by rw [hbefore, hes], huses⟩
  · rintro ⟨definition, after, later, hes, huses⟩
    exact ⟨l.before, definition, after, later, hes, (List.nil_append _).symm, huses⟩

/-- A leaf stands in the section right after whatever comes before it. -/
theorem Grammar.exists_lexicon_eq {g : Grammar} {l : LexicalLeaf} (hl : l ∈ g.lexicalLeaves) :
    ∃ rest, g.lexicon = l.precedents g.name.text ++ l.occurrence g.name.text :: rest := by
  obtain ⟨definition, after, later, hes, huses⟩ := mem_lexicalLeaves_iff.mp hl
  let rest := later.map fun use =>
    (⟨g.name.text, .use (.lexical l.owner.text), use⟩ : Occurrence)
  refine ⟨rest ++ after.flatMap (·.occurrences g.name.text), ?_⟩
  rw [← g.flatMap_declarations, hes, List.flatMap_append, List.flatMap_cons]
  simp [Declaration.occurrences, Declaration.name, Declaration.role, Declaration.uses, huses,
    LexicalLeaf.precedents, LexicalLeaf.occurrence, rest]

end GrammarIndex
