import GrammarIndex.Grammar.Tokens
import GrammarIndex.Proofs.Symbol.Renaming
import Mathlib.Data.List.Basic

/-!
# Occurrences after a renaming

Where the tokens of a tree get new texts, the occurrences of the tree change in two ways:
each has another token, and each is told by other names where it refers to the grammar,
the terminal or the rule that it belongs to.  If the tokens that declare those names were
renamed as the symbols were, the second change is a renaming too.

## Main definitions

* `Role.declaredIn?` — the scope in which an occurrence declares its name.
* `Use.rename`, `Role.rename`, `Occurrence.rename` — an occurrence after a renaming.
* `Declares ρ f o` — a declaring token is given the text that the renaming asks for.

## Main results

* `Tree.occurrences_mapTokens` — **the occurrences of the renamed tree are the renamed
  occurrences of the tree.**
-/

namespace GrammarIndex

/-- The scope in which an occurrence of this role declares its name, if it does. -/
def Role.declaredIn? (role : Role) (grammar : String) : Option (List String) :=
  match role with
  | .grammar => some []
  | .context => some [grammar]
  | .terminal => some [grammar]
  | .nonterminal => some [grammar]
  | .parameter rule => some [grammar, rule]
  | .use _ => none

/-- A use in a grammar after the renaming. -/
def Use.rename (ρ : Renaming) (grammar : String) (u : Use) : Use :=
  match u with
  | .lexical owner => .lexical (ρ.label [grammar] owner)
  | .symbol rule parameters =>
    .symbol (ρ.label [grammar] rule) (parameters.map (ρ.label [grammar, rule]))
  | u => u

/-- A role in a grammar after the renaming. -/
def Role.rename (ρ : Renaming) (grammar : String) (role : Role) : Role :=
  match role with
  | .parameter rule => .parameter (ρ.label [grammar] rule)
  | .use u => .use (u.rename ρ grammar)
  | role => role

/-- An occurrence after the renaming, where its token has become another. -/
def Occurrence.rename (ρ : Renaming) (f : Token → Token) (o : Occurrence) : Occurrence where
  grammar := ρ.label [] o.grammar
  role := o.role.rename ρ o.grammar
  token := f o.token

/-- If the occurrence declares a name, its token gets the name that the renaming asks for. -/
def Declares (ρ : Renaming) (f : Token → Token) (o : Occurrence) : Prop :=
  ∀ scope ∈ o.role.declaredIn? o.grammar, (f o.token).text = ρ.label scope o.token.text

@[simp] theorem isLiteral_rename (ρ : Renaming) (grammar : String) (role : Role) :
    (role.rename ρ grammar).isLiteral = role.isLiteral := by
  cases role with
  | use u => cases u <;> rfl
  | _ => rfl

/-- No literal declares anything. -/
theorem Role.isLiteral_of_declaredIn? {role : Role} {grammar : String} {home : List String}
    (h : role.declaredIn? grammar = some home) : role.isLiteral = false := by
  cases role with
  | use u => exact absurd h (by simp [Role.declaredIn?])
  | _ => rfl

theorem declaredIn?_rename {ρ : Renaming} {grammar : String} {role : Role} {home : List String}
    (h : role.declaredIn? grammar = some home) :
    (role.rename ρ grammar).declaredIn? (ρ.label [] grammar) = some (ρ.move [] home) := by
  cases role with
  | use u => exact absurd h (by simp [Role.declaredIn?])
  | _ => rw [← Option.some.inj h]; rfl

/-! ### Sections -/

section

variable {ρ : Renaming} {f : Token → Token}

mutual

theorem LexicalExpr.uses_mapTokens (f : Token → Token) :
    ∀ e : LexicalExpr, (e.mapTokens f).uses = e.uses.map f
  | .reference name => by
    rw [LexicalExpr.mapTokens, LexicalExpr.uses, LexicalExpr.uses, List.map_singleton]
  | .atom token => by
    rw [LexicalExpr.mapTokens, LexicalExpr.uses, LexicalExpr.uses, List.map_nil]
  | .sequence parts => by
    rw [LexicalExpr.mapTokens, LexicalExpr.uses, LexicalExpr.uses]
    exact LexicalExpr.usesOfAll_mapTokens f parts
  | .union parts => by
    rw [LexicalExpr.mapTokens, LexicalExpr.uses, LexicalExpr.uses]
    exact LexicalExpr.usesOfAll_mapTokens f parts
  | .difference left right => by
    rw [LexicalExpr.mapTokens, LexicalExpr.uses, LexicalExpr.uses, left.uses_mapTokens f,
      right.uses_mapTokens f, List.map_append]
  | .repeated part _ => by
    rw [LexicalExpr.mapTokens, LexicalExpr.uses, LexicalExpr.uses, part.uses_mapTokens f]

theorem LexicalExpr.usesOfAll_mapTokens (f : Token → Token) : ∀ es : List LexicalExpr,
    LexicalExpr.usesOfAll (LexicalExpr.mapTokensOfAll f es) = (LexicalExpr.usesOfAll es).map f
  | [] => by
    rw [LexicalExpr.mapTokensOfAll, LexicalExpr.usesOfAll, List.map_nil]
  | e :: es => by
    rw [LexicalExpr.mapTokensOfAll, LexicalExpr.usesOfAll, LexicalExpr.usesOfAll,
      e.uses_mapTokens f, LexicalExpr.usesOfAll_mapTokens f es, List.map_append]

end

mutual

theorem TerminalEntry.occurrences_mapTokens {grammar : String} : ∀ entry : TerminalEntry,
    (∀ o ∈ entry.occurrences grammar, Declares ρ f o) →
      (entry.mapTokens f).occurrences (ρ.label [] grammar) =
        (entry.occurrences grammar).map (·.rename ρ f)
  | .context name entries => by
    intro h
    rw [TerminalEntry.occurrences] at h
    rw [TerminalEntry.mapTokens, TerminalEntry.occurrences, TerminalEntry.occurrences,
      List.map_cons, TerminalEntry.occurrencesOfAll_mapTokens entries
        fun o ho => h o (List.mem_cons_of_mem _ ho)]
    rfl
  | .terminal name definition => by
    intro h
    rw [TerminalEntry.occurrences] at h
    -- the uses in a definition are told by the name of the terminal
    have hname : (f name).text = ρ.label [grammar] name.text := h _ List.mem_cons_self _ rfl
    rw [TerminalEntry.mapTokens, TerminalEntry.occurrences, TerminalEntry.occurrences,
      List.map_cons, LexicalExpr.uses_mapTokens, List.map_map, List.map_map, hname]
    rfl

theorem TerminalEntry.occurrencesOfAll_mapTokens {grammar : String} :
    ∀ entries : List TerminalEntry,
      (∀ o ∈ TerminalEntry.occurrencesOfAll grammar entries, Declares ρ f o) →
        TerminalEntry.occurrencesOfAll (ρ.label [] grammar)
          (TerminalEntry.mapTokensOfAll f entries) =
            (TerminalEntry.occurrencesOfAll grammar entries).map (·.rename ρ f)
  | [] => by
    intro _
    rw [TerminalEntry.mapTokensOfAll, TerminalEntry.occurrencesOfAll,
      TerminalEntry.occurrencesOfAll, List.map_nil]
  | entry :: entries => by
    intro h
    rw [TerminalEntry.occurrencesOfAll] at h
    rw [TerminalEntry.mapTokensOfAll, TerminalEntry.occurrencesOfAll,
      TerminalEntry.occurrencesOfAll, List.map_append,
      TerminalEntry.occurrences_mapTokens entry fun o ho => h o (List.mem_append_left _ ho),
      TerminalEntry.occurrencesOfAll_mapTokens entries
        fun o ho => h o (List.mem_append_right _ ho)]

end

mutual

/-- The uses in a rule body after the renaming; only a bare name is used in another way. -/
theorem RuleExpr.uses_mapTokens (grammar : String) (bare : Use) : ∀ e : RuleExpr,
    (e.mapTokens f).uses (bare.rename ρ grammar) =
      (e.uses bare).map fun u => (u.1.rename ρ grammar, f u.2)
  | .contextSwitch t body => by
    rw [RuleExpr.mapTokens, RuleExpr.uses, RuleExpr.uses, body.uses_mapTokens grammar bare,
      List.map_cons]
    rfl
  | .action t => by
    rw [RuleExpr.mapTokens, RuleExpr.uses, RuleExpr.uses]
    rfl
  | .virtual t => by
    rw [RuleExpr.mapTokens, RuleExpr.uses, RuleExpr.uses]
    rfl
  | .name t => by
    rw [RuleExpr.mapTokens, RuleExpr.uses, RuleExpr.uses, List.map_singleton]
  | .literal t => by
    rw [RuleExpr.mapTokens, RuleExpr.uses, RuleExpr.uses, List.map_nil]
  | .call t arguments => by
    rw [RuleExpr.mapTokens, RuleExpr.uses, RuleExpr.uses,
      RuleExpr.usesOfAll_mapTokens grammar bare arguments, List.map_cons]
  | .sequence parts => by
    rw [RuleExpr.mapTokens, RuleExpr.uses, RuleExpr.uses]
    exact RuleExpr.usesOfAll_mapTokens grammar bare parts
  | .alternation parts => by
    rw [RuleExpr.mapTokens, RuleExpr.uses, RuleExpr.uses]
    exact RuleExpr.usesOfAll_mapTokens grammar bare parts
  | .repeated part _ => by
    rw [RuleExpr.mapTokens, RuleExpr.uses, RuleExpr.uses]
    exact part.uses_mapTokens grammar bare
  | .tree part _ => by
    rw [RuleExpr.mapTokens, RuleExpr.uses, RuleExpr.uses]
    exact part.uses_mapTokens grammar bare

theorem RuleExpr.usesOfAll_mapTokens (grammar : String) (bare : Use) : ∀ es : List RuleExpr,
    RuleExpr.usesOfAll (bare.rename ρ grammar) (RuleExpr.mapTokensOfAll f es) =
      (RuleExpr.usesOfAll bare es).map fun u => (u.1.rename ρ grammar, f u.2)
  | [] => by
    rw [RuleExpr.mapTokensOfAll, RuleExpr.usesOfAll, RuleExpr.usesOfAll, List.map_nil]
  | e :: es => by
    rw [RuleExpr.mapTokensOfAll, RuleExpr.usesOfAll, RuleExpr.usesOfAll,
      e.uses_mapTokens grammar bare, RuleExpr.usesOfAll_mapTokens grammar bare es,
      List.map_append]

end

theorem Rule.occurrences_mapTokens {grammar : String} {rule : Rule}
    (hname : (f rule.name).text = ρ.label [grammar] rule.name.text)
    (h : ∀ o ∈ rule.occurrences grammar, Declares ρ f o) :
    (rule.mapTokens f).occurrences (ρ.label [] grammar) =
      (rule.occurrences grammar).map (·.rename ρ f) := by
  have hparameters : ∀ p ∈ rule.parameters,
      (f p).text = ρ.label [grammar, rule.name.text] p.text := by
    intro p hp
    exact h ⟨grammar, .parameter rule.name.text, p⟩
      (List.mem_append_left _ (List.mem_map_of_mem hp)) _ rfl
  -- what a bare name means is told by the rule and its parameters, which are renamed alike
  have hbare : (rule.mapTokens f).bareUse = rule.bareUse.rename ρ grammar := by
    show Use.symbol (f rule.name).text ((rule.parameters.map f).map (·.text)) =
      .symbol (ρ.label [grammar] rule.name.text)
        ((rule.parameters.map (·.text)).map (ρ.label [grammar, rule.name.text]))
    rw [hname, List.map_map, List.map_map, Use.symbol.injEq]
    exact ⟨rfl, List.map_congr_left hparameters⟩
  have hbody : (rule.mapTokens f).body.uses (rule.mapTokens f).bareUse =
      (rule.body.uses rule.bareUse).map fun u => (u.1.rename ρ grammar, f u.2) := by
    rw [hbare]
    exact rule.body.uses_mapTokens grammar rule.bareUse
  have hrule : (rule.mapTokens f).name.text = ρ.label [grammar] rule.name.text := hname
  rw [Rule.occurrences, hbody, hrule, Rule.occurrences, List.map_append, List.map_map,
    List.map_map, List.map_map]
  congr 1
  show (rule.parameters.map f).map _ = _
  rw [List.map_map]
  rfl

theorem Setting.occurrences_mapTokens (grammar : String) {setting : Setting}
    (h : (f setting.name).text = setting.name.text) :
    (setting.mapTokens f).occurrences (ρ.label [] grammar) =
      (setting.occurrences grammar).map (·.rename ρ f) := by
  have hname : (setting.mapTokens f).name.text = setting.name.text := h
  unfold Setting.occurrences
  rw [hname]
  split
  · rfl
  · split <;> rfl

/-! ### Grammars and documents -/

theorem Grammar.occurrences_mapTokens {g : Grammar} (h : ∀ o ∈ g.occurrences, Declares ρ f o)
    (hoptions : ∀ setting ∈ g.options, (f setting.name).text = setting.name.text) :
    (g.mapTokens f).occurrences = g.occurrences.map (·.rename ρ f) := by
  let name := g.name.text
  -- whatever is declared in a section is declared in the grammar
  have hsections : ∀ o ∈ g.parents.map (fun p => (⟨name, .use .parent, p⟩ : Occurrence)) ++
      g.terminals.flatMap (·.occurrences name) ++
      g.rules.map (fun rule => ⟨name, .nonterminal, rule.name⟩) ++
      g.rules.flatMap (·.occurrences name) ++ g.options.flatMap (·.occurrences name),
      Declares ρ f o := fun o ho => h o (List.mem_cons_of_mem _ ho)
  simp only [List.mem_append] at hsections
  have hname : (g.mapTokens f).name.text = ρ.label [] name := h _ List.mem_cons_self _ rfl
  have hterminals : (g.terminals.map (·.mapTokens f)).flatMap (·.occurrences (ρ.label [] name)) =
      (g.terminals.flatMap (·.occurrences name)).map (·.rename ρ f) := by
    rw [List.flatMap_map, List.map_flatMap]
    refine List.flatMap_congr fun entry hentry => ?_
    refine TerminalEntry.occurrences_mapTokens entry fun o ho => ?_
    exact hsections o (.inl (.inl (.inl (.inr (List.mem_flatMap.mpr ⟨entry, hentry, ho⟩)))))
  have hrules : (g.rules.map (·.mapTokens f)).flatMap (·.occurrences (ρ.label [] name)) =
      (g.rules.flatMap (·.occurrences name)).map (·.rename ρ f) := by
    rw [List.flatMap_map, List.map_flatMap]
    refine List.flatMap_congr fun rule hrule => ?_
    refine Rule.occurrences_mapTokens ?_ fun o ho => ?_
    · exact hsections ⟨name, .nonterminal, rule.name⟩
        (.inl (.inl (.inr (List.mem_map_of_mem hrule)))) _ rfl
    · exact hsections o (.inl (.inr (List.mem_flatMap.mpr ⟨rule, hrule, ho⟩)))
  have hsettings : (g.options.map (·.mapTokens f)).flatMap (·.occurrences (ρ.label [] name)) =
      (g.options.flatMap (·.occurrences name)).map (·.rename ρ f) := by
    rw [List.flatMap_map, List.map_flatMap]
    exact List.flatMap_congr fun setting hsetting =>
      Setting.occurrences_mapTokens name (hoptions setting hsetting)
  unfold Grammar.occurrences
  simp only [hname]
  rw [show (g.mapTokens f).terminals = g.terminals.map (·.mapTokens f) from rfl,
    show (g.mapTokens f).rules = g.rules.map (·.mapTokens f) from rfl,
    show (g.mapTokens f).options = g.options.map (·.mapTokens f) from rfl,
    show (g.mapTokens f).parents = g.parents.map f from rfl, hterminals, hrules, hsettings]
  simp only [List.map_cons, List.map_append, List.map_map]
  rfl

/-- **The occurrences of the renamed tree are the renamed occurrences of the tree**, if its
declarations are renamed as the renaming asks, and no option. -/
theorem Tree.occurrences_mapTokens {tree : Tree} (h : ∀ o ∈ tree.occurrences, Declares ρ f o)
    (hoptions : ∀ g ∈ tree.grammars, ∀ setting ∈ g.options,
      (f setting.name).text = setting.name.text) :
    (tree.mapTokens f).occurrences = tree.occurrences.map (·.rename ρ f) := by
  show (tree.grammars.map (·.mapTokens f)).flatMap (·.occurrences) =
    (tree.grammars.flatMap (·.occurrences)).map _
  rw [List.flatMap_map, List.map_flatMap]
  refine List.flatMap_congr fun g hg => ?_
  refine Grammar.occurrences_mapTokens (fun o ho => ?_) (hoptions g hg)
  exact h o (List.mem_flatMap.mpr ⟨g, hg, ho⟩)

end

end GrammarIndex
