import GrammarIndex.Grammar.Occurrence
import GrammarIndex.Text.Literal
import Mathlib.Data.List.Basic

/-!
# The leaves of a grammar

What stands in the rules and the options of a grammar are trees, and whatever names a symbol
in them is a leaf.  A grammar declares its contexts, terminals and variables before any leaf
is looked at; then come the leaves, and in between nothing but the parameters of templates.

## Main definitions

* `Leaf`, `Grammar.leaves` — the leaves of a grammar, in source order.
* `Grammar.HasTerminal`, `Grammar.HasContext`, `Grammar.HasVariable` — what a grammar declares,
  at any depth.
* `Grammar.headings`, `Grammar.bodies` — the occurrences ahead of the bodies of the rules, and
  those from there on.

## Main results

* `Grammar.filter_bodies` — **the uses in the bodies are the leaves**, one by one.
* `Grammar.exists_headings_terminal_iff` and its like — the headings declare what the grammar
  has.
-/

namespace GrammarIndex

/-! ### Leaves -/

/-- Something in a rule or an option that names a symbol. -/
inductive Leaf where
  /-- A bare name in the body of this rule, or the callee of a template there. -/
  | name (rule : Rule) (token : Token)
  /-- The lexical context in which a part of a rule is matched. -/
  | contextSwitch (context : Token)
  /-- A semantic action. -/
  | action (name : Token)
  /-- A virtual symbol, written as a quoted literal. -/
  | virtual (literal : Token)
  /-- The value of an option that names the start symbol. -/
  | axiomValue (literal : Token)
  /-- The value of an option that names the separator. -/
  | separatorValue (literal : Token)
  deriving Repr

namespace Leaf

/-- The token of a leaf. -/
def token : Leaf → Token
  | name _ t => t
  | contextSwitch t => t
  | action t => t
  | virtual t => t
  | axiomValue t => t
  | separatorValue t => t

/-- How a leaf uses its name. -/
def use : Leaf → Use
  | name rule _ => rule.bareUse
  | contextSwitch _ => .context
  | action _ => .action
  | virtual _ => .virtual
  | axiomValue _ => .axiomValue
  | separatorValue _ => .separatorValue

/-- The name that a leaf carries: what is written, or what a literal stands for. -/
def name? : Leaf → Option String
  | name _ t => some t.text
  | contextSwitch t => some t.text
  | action t => some t.text
  | virtual t => literalValue? t.text
  | axiomValue t => literalValue? t.text
  | separatorValue t => literalValue? t.text

/-- The leaf as an occurrence in a grammar of this name. -/
def occurrence (grammar : String) (l : Leaf) : Occurrence := ⟨grammar, .use l.use, l.token⟩

end Leaf

mutual

/-- The leaves in the body of a rule, from left to right: a context comes before what is
matched in it, and a template before its arguments. -/
def RuleExpr.leaves (rule : Rule) : RuleExpr → List Leaf
  | .contextSwitch context body => .contextSwitch context :: body.leaves rule
  | .action token => [.action token]
  | .virtual token => [.virtual token]
  | .name token => [.name rule token]
  | .literal _ => []
  | .call callee arguments => .name rule callee :: leavesOfAll rule arguments
  | .sequence parts => leavesOfAll rule parts
  | .alternation parts => leavesOfAll rule parts
  | .repeated part _ => part.leaves rule
  | .tree part _ => part.leaves rule

/-- The leaves in several parts of the body of a rule, from left to right. -/
def RuleExpr.leavesOfAll (rule : Rule) : List RuleExpr → List Leaf
  | [] => []
  | e :: es => e.leaves rule ++ leavesOfAll rule es

end

/-- The leaf in an option, if it names a symbol. -/
def Setting.leaf? (setting : Setting) : Option Leaf :=
  if setting.name.text = axiomOption then some (.axiomValue setting.value)
  else if setting.name.text = separatorOption then some (.separatorValue setting.value)
  else none

/-- The leaves of a grammar: those in its rules, and then those in its options. -/
def Grammar.leaves (g : Grammar) : List Leaf :=
  g.rules.flatMap (fun rule => rule.body.leaves rule) ++ g.options.filterMap (·.leaf?)

/-! ### What a grammar declares -/

/-- The entry stands in the section, at any depth. -/
inductive TerminalEntry.Within (e : TerminalEntry) : List TerminalEntry → Prop
  /-- The section has the entry itself. -/
  | here {es : List TerminalEntry} (h : e ∈ es) : Within e es
  /-- A context of the section has the entry. -/
  | deeper {name : Token} {entries es : List TerminalEntry} (hcontext : .context name entries ∈ es)
    (h : Within e entries) : Within e es

namespace Grammar

variable (g : Grammar) (name : String)

/-- The grammar has a terminal of this name, at any depth. -/
def HasTerminal : Prop :=
  ∃ token definition, (TerminalEntry.terminal token definition).Within g.terminals ∧
    token.text = name

/-- The grammar has a lexical context of this name, at any depth. -/
def HasContext : Prop :=
  ∃ token entries, (TerminalEntry.context token entries).Within g.terminals ∧ token.text = name

/-- The grammar has a rule of this name. -/
def HasVariable : Prop := ∃ rule ∈ g.rules, rule.name.text = name

/-- The occurrences of a grammar after its name and ahead of the bodies of its rules. -/
def headings : List Occurrence :=
  g.parents.map (fun p => ⟨g.name.text, .use .parent, p⟩) ++
    g.terminals.flatMap (·.occurrences g.name.text) ++
    g.rules.map fun rule => ⟨g.name.text, .nonterminal, rule.name⟩

/-- The occurrences in the bodies of the rules, and in the options. -/
def bodies : List Occurrence :=
  g.rules.flatMap (·.occurrences g.name.text) ++ g.options.flatMap (·.occurrences g.name.text)

/-- A grammar is looked at in two phases. -/
theorem occurrences_eq :
    g.occurrences = ⟨g.name.text, .grammar, g.name⟩ :: g.headings ++ g.bodies := by
  simp only [occurrences, headings, bodies, List.append_assoc, List.cons_append]

end Grammar

/-! ### The uses in the bodies -/

/-- The role is a use of something that is declared somewhere else. -/
def Role.isUse : Role → Bool
  | use _ => true
  | _ => false

mutual

/-- The leaves of a body use their names as the body does. -/
theorem RuleExpr.map_leaves (rule : Rule) : ∀ e : RuleExpr,
    (e.leaves rule).map (fun l => (l.use, l.token)) = e.uses rule.bareUse
  | .contextSwitch context body => by
    rw [leaves, uses, List.map_cons, RuleExpr.map_leaves rule body]
    rfl
  | .action _ | .virtual _ | .name _ | .literal _ => by
    rw [leaves, uses]
    rfl
  | .call callee arguments => by
    rw [leaves, uses, List.map_cons, RuleExpr.map_leavesOfAll rule arguments]
    rfl
  | .sequence parts | .alternation parts => by
    rw [leaves, uses, RuleExpr.map_leavesOfAll rule parts]
  | .repeated part _ | .tree part _ => by
    rw [leaves, uses, RuleExpr.map_leaves rule part]

theorem RuleExpr.map_leavesOfAll (rule : Rule) : ∀ es : List RuleExpr,
    (leavesOfAll rule es).map (fun l => (l.use, l.token)) = usesOfAll rule.bareUse es
  | [] => by
    rw [leavesOfAll, usesOfAll]
    rfl
  | e :: es => by
    rw [leavesOfAll, usesOfAll, List.map_append, RuleExpr.map_leaves rule e,
      RuleExpr.map_leavesOfAll rule es]

end

theorem Rule.filter_occurrences (rule : Rule) (grammar : String) :
    (rule.occurrences grammar).filter (·.role.isUse) =
      (rule.body.leaves rule).map (·.occurrence grammar) := by
  have hparameters : (rule.parameters.map fun p =>
      (⟨grammar, .parameter rule.name.text, p⟩ : Occurrence)).filter (·.role.isUse) = [] := by
    simp [Role.isUse]
  have huses : ((rule.body.uses rule.bareUse).map fun u =>
      (⟨grammar, .use u.1, u.2⟩ : Occurrence)) =
        (rule.body.leaves rule).map (·.occurrence grammar) := by
    rw [← RuleExpr.map_leaves, List.map_map]
    rfl
  rw [occurrences, List.filter_append, hparameters, huses, List.nil_append, List.filter_eq_self]
  intro o ho
  obtain ⟨l, -, rfl⟩ := List.mem_map.mp ho
  rfl

theorem Setting.filter_occurrences (setting : Setting) (grammar : String) :
    (setting.occurrences grammar).filter (·.role.isUse) =
      (setting.leaf?.map (·.occurrence grammar)).toList := by
  unfold occurrences leaf?
  split
  · rfl
  · split <;> rfl

/-- **The uses in the bodies are the leaves**, in the same order. -/
theorem Grammar.filter_bodies (g : Grammar) :
    g.bodies.filter (·.role.isUse) = g.leaves.map (·.occurrence g.name.text) := by
  rw [bodies, leaves, List.filter_append, List.map_append, List.filter_flatMap,
    List.filter_flatMap, List.map_flatMap, List.map_filterMap]
  congr 1
  · apply List.flatMap_congr
    intro rule _
    exact rule.filter_occurrences g.name.text
  · rw [List.filterMap_eq_flatMap_toList]
    apply List.flatMap_congr
    intro setting _
    exact setting.filter_occurrences g.name.text

/-- What is no use in the bodies declares a parameter. -/
theorem Grammar.mem_bodies_iff {g : Grammar} {o : Occurrence} (huse : o.role.isUse = false) :
    o ∈ g.bodies ↔ ∃ rule ∈ g.rules, ∃ p ∈ rule.parameters,
      ⟨g.name.text, .parameter rule.name.text, p⟩ = o := by
  unfold bodies
  rw [List.mem_append, List.mem_flatMap, List.mem_flatMap]
  constructor
  · rintro (⟨rule, hrule, ho⟩ | ⟨setting, -, ho⟩)
    · rcases List.mem_append.mp ho with ho | ho
      · exact ⟨rule, hrule, List.mem_map.mp ho⟩
      · obtain ⟨u, -, rfl⟩ := List.mem_map.mp ho
        exact absurd huse (by simp [Role.isUse])
    · -- a setting is recorded by its value, which is a use
      unfold Setting.occurrences at ho
      split at ho
      · obtain rfl := List.mem_singleton.mp ho
        exact absurd huse (by simp [Role.isUse])
      · split at ho
        · obtain rfl := List.mem_singleton.mp ho
          exact absurd huse (by simp [Role.isUse])
        · exact absurd ho List.not_mem_nil
  · rintro ⟨rule, hrule, hp⟩
    exact .inl ⟨rule, hrule, List.mem_append_left _ (List.mem_map.mpr hp)⟩

theorem Grammar.exists_parameter_of_mem_bodies {g : Grammar} {o : Occurrence} (ho : o ∈ g.bodies)
    (huse : o.role.isUse = false) : ∃ rule, o.role = .parameter rule := by
  obtain ⟨rule, -, p, -, rfl⟩ := (mem_bodies_iff huse).mp ho
  exact ⟨_, rfl⟩

/-! ### The headings -/

namespace TerminalEntry

/-- The occurrence that declares an entry. -/
def heading (grammar : String) : TerminalEntry → Occurrence
  | .context name _ => ⟨grammar, .context, name⟩
  | .terminal name _ => ⟨grammar, .terminal, name⟩

theorem Within.mono {e : TerminalEntry} {es es' : List TerminalEntry} (h : e.Within es)
    (hsub : es ⊆ es') : e.Within es' := by
  cases h with
  | here h => exact .here (hsub h)
  | deeper hcontext h => exact .deeper (hsub hcontext) h

/-- An entry is declared where it stands. -/
theorem Within.heading_mem {grammar : String} {e : TerminalEntry} {es : List TerminalEntry}
    (h : e.Within es) : e.heading grammar ∈ es.flatMap (occurrences grammar) := by
  induction h with
  | here h =>
    refine List.mem_flatMap.mpr ⟨e, h, ?_⟩
    cases e <;> rw [occurrences] <;> exact List.mem_cons_self
  | deeper hcontext _ ih =>
    refine List.mem_flatMap.mpr ⟨_, hcontext, ?_⟩
    rw [occurrences, occurrencesOfAll_eq_flatMap]
    exact List.mem_cons_of_mem _ ih

end TerminalEntry

mutual

/-- What is no use in an entry declares the entry, or one that stands in it. -/
theorem TerminalEntry.exists_heading_eq {grammar : String} {o : Occurrence}
    (huse : o.role.isUse = false) : ∀ entry : TerminalEntry, o ∈ entry.occurrences grammar →
      ∃ e : TerminalEntry, e.Within [entry] ∧ e.heading grammar = o
  | .context name entries => by
    intro ho
    rw [occurrences] at ho
    rcases List.mem_cons.mp ho with rfl | ho
    · exact ⟨_, .here List.mem_cons_self, rfl⟩
    · obtain ⟨e, he, heading_eq⟩ := TerminalEntry.exists_heading_eq_of_all huse entries ho
      exact ⟨e, .deeper List.mem_cons_self he, heading_eq⟩
  | .terminal name definition => by
    intro ho
    rw [occurrences] at ho
    rcases List.mem_cons.mp ho with rfl | ho
    · exact ⟨_, .here List.mem_cons_self, rfl⟩
    · obtain ⟨use, -, rfl⟩ := List.mem_map.mp ho
      exact absurd huse (by simp [Role.isUse])

theorem TerminalEntry.exists_heading_eq_of_all {grammar : String} {o : Occurrence}
    (huse : o.role.isUse = false) : ∀ entries : List TerminalEntry,
      o ∈ occurrencesOfAll grammar entries →
        ∃ e : TerminalEntry, e.Within entries ∧ e.heading grammar = o
  | [] => by
    intro ho
    rw [occurrencesOfAll] at ho
    exact absurd ho List.not_mem_nil
  | entry :: entries => by
    intro ho
    rw [occurrencesOfAll] at ho
    rcases List.mem_append.mp ho with ho | ho
    · obtain ⟨e, he, heading_eq⟩ := TerminalEntry.exists_heading_eq huse entry ho
      exact ⟨e, he.mono (by simp), heading_eq⟩
    · obtain ⟨e, he, heading_eq⟩ := TerminalEntry.exists_heading_eq_of_all huse entries ho
      exact ⟨e, he.mono (List.subset_cons_self _ _), heading_eq⟩

end

namespace Grammar

variable {g : Grammar}

/-- What is no use in the headings declares an entry of the terminals section, or a variable. -/
theorem mem_headings_iff {o : Occurrence} (huse : o.role.isUse = false) :
    o ∈ g.headings ↔ (∃ e : TerminalEntry, e.Within g.terminals ∧ e.heading g.name.text = o) ∨
      ∃ rule ∈ g.rules, ⟨g.name.text, .nonterminal, rule.name⟩ = o := by
  unfold headings
  rw [List.mem_append, List.mem_append, List.mem_map, List.mem_map]
  constructor
  · rintro ((⟨p, -, rfl⟩ | ho) | hrule)
    · exact absurd huse (by simp [Role.isUse])
    · rw [← TerminalEntry.occurrencesOfAll_eq_flatMap] at ho
      exact .inl (TerminalEntry.exists_heading_eq_of_all huse _ ho)
    · exact .inr hrule
  · rintro (⟨e, he, rfl⟩ | hrule)
    · exact .inl (.inr he.heading_mem)
    · exact .inr hrule

/-- The headings declare the terminals of the grammar. -/
theorem exists_headings_terminal_iff {name : String} :
    (∃ o ∈ g.headings, o.role = .terminal ∧ o.token.text = name) ↔ g.HasTerminal name := by
  constructor
  · rintro ⟨o, ho, hrole, hname⟩
    rcases (mem_headings_iff (by rw [hrole]; rfl)).mp ho with ⟨e, he, rfl⟩ | ⟨rule, -, rfl⟩
    · cases e with
      | terminal token definition => exact ⟨token, definition, he, hname⟩
      | context => exact absurd hrole (by simp [TerminalEntry.heading])
    · exact absurd hrole (by simp)
  · rintro ⟨token, definition, h, hname⟩
    exact ⟨_, (mem_headings_iff rfl).mpr (.inl ⟨_, h, rfl⟩), rfl, hname⟩

/-- The headings declare the contexts of the grammar. -/
theorem exists_headings_context_iff {name : String} :
    (∃ o ∈ g.headings, o.role = .context ∧ o.token.text = name) ↔ g.HasContext name := by
  constructor
  · rintro ⟨o, ho, hrole, hname⟩
    rcases (mem_headings_iff (by rw [hrole]; rfl)).mp ho with ⟨e, he, rfl⟩ | ⟨rule, -, rfl⟩
    · cases e with
      | context token entries => exact ⟨token, entries, he, hname⟩
      | terminal => exact absurd hrole (by simp [TerminalEntry.heading])
    · exact absurd hrole (by simp)
  · rintro ⟨token, entries, h, hname⟩
    exact ⟨_, (mem_headings_iff rfl).mpr (.inl ⟨_, h, rfl⟩), rfl, hname⟩

/-- The headings declare the variables of the grammar. -/
theorem exists_headings_nonterminal_iff {name : String} :
    (∃ o ∈ g.headings, o.role = .nonterminal ∧ o.token.text = name) ↔ g.HasVariable name := by
  constructor
  · rintro ⟨o, ho, hrole, hname⟩
    rcases (mem_headings_iff (by rw [hrole]; rfl)).mp ho with ⟨e, -, rfl⟩ | ⟨rule, hrule, rfl⟩
    · cases e <;> exact absurd hrole (by simp [TerminalEntry.heading])
    · exact ⟨rule, hrule, hname⟩
  · rintro ⟨rule, hrule, hname⟩
    exact ⟨_, (mem_headings_iff rfl).mpr (.inr ⟨rule, hrule, rfl⟩), rfl, hname⟩

end Grammar

end GrammarIndex
