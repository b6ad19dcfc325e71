import GrammarIndex.Proofs.Grammar.Leaves
import GrammarIndex.Proofs.Grammar.Owners

/-!
# The names that a document declares

A grammar declares its own name, the contexts and terminals of its terminals section, at any
depth, the variables of its rules, and the parameters of those that are templates.  In the list
of occurrences these are the ones that are no uses.

## Main definitions

* `Grammar.Introduces`, `Tree.Introduces` — a token that declares a name, with the scope that it
  lies in.

## Main results

* `Tree.introduces_iff` — **what is declared are the occurrences that are no uses**, with their
  owners.
-/

namespace GrammarIndex

/-- The token declares a name of the grammar, in the scope of this qualified name, if in any. -/
inductive Grammar.Introduces (g : Grammar) : Token → Option String → Prop
  /-- The name of the grammar lies in no scope. -/
  | grammar : Introduces g g.name none
  /-- A lexical context, at any depth of the terminals section, lies in the grammar. -/
  | context {name : Token} {entries : List TerminalEntry}
    (within : (TerminalEntry.context name entries).Within g.terminals) :
    Introduces g name (some g.name.text)
  /-- So does a terminal. -/
  | terminal {name : Token} {definition : LexicalExpr}
    (within : (TerminalEntry.terminal name definition).Within g.terminals) :
    Introduces g name (some g.name.text)
  /-- So does the variable of a rule. -/
  | rule {rule : Rule} (mem : rule ∈ g.rules) : Introduces g rule.name (some g.name.text)
  /-- The parameter of a template lies in the variable of its rule. -/
  | parameter {rule : Rule} {name : Token} (mem : rule ∈ g.rules)
    (mem_parameters : name ∈ rule.parameters) :
    Introduces g name (some (qualify g.name.text rule.name.text))

/-- The token declares a name of some grammar of the document. -/
def Tree.Introduces (tree : Tree) (t : Token) (owner : Option String) : Prop :=
  ∃ g ∈ tree.grammars, g.Introduces t owner

/-- An occurrence that is no use declares its token, in the scope of its owner. -/
theorem Grammar.introduces_iff {g : Grammar} {t : Token} {owner : Option String} :
    g.Introduces t owner ↔
      ∃ o ∈ g.occurrences, o.role.isUse = false ∧ o.token = t ∧ o.owner? = owner := by
  rw [occurrences_eq]
  constructor
  · intro h
    cases h with
    | grammar => exact ⟨_, List.mem_cons_self, rfl, rfl, rfl⟩
    | context within =>
      have ho := (mem_headings_iff (o := ⟨g.name.text, .context, t⟩) rfl).mpr
        (.inl ⟨_, within, rfl⟩)
      exact ⟨_, List.mem_append_left _ (List.mem_cons_of_mem _ ho), rfl, rfl, rfl⟩
    | terminal within =>
      have ho := (mem_headings_iff (o := ⟨g.name.text, .terminal, t⟩) rfl).mpr
        (.inl ⟨_, within, rfl⟩)
      exact ⟨_, List.mem_append_left _ (List.mem_cons_of_mem _ ho), rfl, rfl, rfl⟩
    | @rule rule mem =>
      have ho := (mem_headings_iff (o := ⟨g.name.text, .nonterminal, rule.name⟩) rfl).mpr
        (.inr ⟨rule, mem, rfl⟩)
      exact ⟨_, List.mem_append_left _ (List.mem_cons_of_mem _ ho), rfl, rfl, rfl⟩
    | @parameter rule _ mem mem_parameters =>
      have ho := (mem_bodies_iff (o := ⟨g.name.text, .parameter rule.name.text, t⟩) rfl).mpr
        ⟨rule, mem, t, mem_parameters, rfl⟩
      exact ⟨_, List.mem_append_right _ ho, rfl, rfl, rfl⟩
  · rintro ⟨o, ho, huse, rfl, rfl⟩
    rcases List.mem_append.mp ho with ho | ho
    · rcases List.mem_cons.mp ho with rfl | ho
      · exact .grammar
      · rcases (mem_headings_iff huse).mp ho with ⟨e, within, rfl⟩ | ⟨rule, mem, rfl⟩
        · cases e with
          | context name entries => exact .context within
          | terminal name definition => exact .terminal within
        · exact .rule mem
    · obtain ⟨rule, mem, p, mem_parameters, rfl⟩ := (mem_bodies_iff huse).mp ho
      exact .parameter mem mem_parameters

/-- **What a document declares are its occurrences that are no uses**, with their owners. -/
theorem Tree.introduces_iff {tree : Tree} {t : Token} {owner : Option String} :
    tree.Introduces t owner ↔
      ∃ o ∈ tree.occurrences, o.role.isUse = false ∧ o.token = t ∧ o.owner? = owner := by
  simp only [Introduces, Grammar.introduces_iff, occurrences, List.mem_flatMap]
  constructor
  · rintro ⟨g, hg, o, ho, hintroduces⟩
    exact ⟨o, ⟨g, hg, ho⟩, hintroduces⟩
  · rintro ⟨o, ⟨g, hg, ho⟩, hintroduces⟩
    exact ⟨g, hg, o, ho, hintroduces⟩

end GrammarIndex
