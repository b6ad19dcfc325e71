import GrammarIndex.Grammar.Tokens
import Mathlib.Data.List.Pairwise

/-!
# Tokens that an analysis reads

An analysis reads the tokens of the occurrences and the names of the options.  Each of them
is a token of the tree in a place of its own, so that no two of them overlap in the text
unless tokens of the tree do.

## Main results

* `Tree.occurrences_pairwise_apart` — the tokens of different occurrences do not overlap.
* `Tree.settingName_apart` — nor does the name of an option with the token of an
  occurrence.
* `Tree.token_mem_tokens` — every occurrence has a token of the tree.
-/

namespace GrammarIndex

theorem Span.Apart.symm {s s' : Span} (h : s.Apart s') : s'.Apart s := Or.symm h

/-! ### Sections -/

mutual

theorem LexicalExpr.uses_sublist : ∀ e : LexicalExpr, e.uses.Sublist e.tokens
  | .reference name => by
    simp only [LexicalExpr.uses, LexicalExpr.tokens, List.Sublist.refl]
  | .atom token => by
    rw [LexicalExpr.uses]
    exact List.nil_sublist _
  | .sequence parts => by
    rw [LexicalExpr.uses, LexicalExpr.tokens]
    exact LexicalExpr.usesOfAll_sublist parts
  | .union parts => by
    rw [LexicalExpr.uses, LexicalExpr.tokens]
    exact LexicalExpr.usesOfAll_sublist parts
  | .difference left right => by
    rw [LexicalExpr.uses, LexicalExpr.tokens]
    exact left.uses_sublist.append right.uses_sublist
  | .repeated part _ => by
    rw [LexicalExpr.uses, LexicalExpr.tokens]
    exact part.uses_sublist

theorem LexicalExpr.usesOfAll_sublist :
    ∀ es : List LexicalExpr, (LexicalExpr.usesOfAll es).Sublist (LexicalExpr.tokensOfAll es)
  | [] => by
    rw [LexicalExpr.usesOfAll]
    exact List.nil_sublist _
  | e :: es => by
    rw [LexicalExpr.usesOfAll, LexicalExpr.tokensOfAll]
    exact e.uses_sublist.append (LexicalExpr.usesOfAll_sublist es)

end

mutual

theorem TerminalEntry.occurrences_sublist (grammar : String) : ∀ entry : TerminalEntry,
    ((entry.occurrences grammar).map (·.token)).Sublist entry.tokens
  | .context name entries => by
    rw [TerminalEntry.occurrences, TerminalEntry.tokens, List.map_cons]
    exact (TerminalEntry.occurrencesOfAll_sublist grammar entries).cons_cons name
  | .terminal name definition => by
    rw [TerminalEntry.occurrences, TerminalEntry.tokens, List.map_cons, List.map_map]
    exact ((List.map_id _).symm ▸ definition.uses_sublist :
      (List.map id _).Sublist _).cons_cons name

theorem TerminalEntry.occurrencesOfAll_sublist (grammar : String) :
    ∀ entries : List TerminalEntry,
      ((TerminalEntry.occurrencesOfAll grammar entries).map (·.token)).Sublist
        (TerminalEntry.tokensOfAll entries)
  | [] => by
    rw [TerminalEntry.occurrencesOfAll]
    exact List.nil_sublist _
  | entry :: entries => by
    rw [TerminalEntry.occurrencesOfAll, TerminalEntry.tokensOfAll, List.map_append]
    exact (entry.occurrences_sublist grammar).append
      (TerminalEntry.occurrencesOfAll_sublist grammar entries)

end

mutual

theorem RuleExpr.uses_sublist (bare : Use) : ∀ e : RuleExpr,
    ((e.uses bare).map (·.2)).Sublist e.tokens
  | .contextSwitch t body => by
    rw [RuleExpr.uses, RuleExpr.tokens, List.map_cons]
    exact (body.uses_sublist bare).cons_cons t
  | .action t => by
    simp only [RuleExpr.uses, RuleExpr.tokens, List.map_singleton, List.Sublist.refl]
  | .virtual t => by
    simp only [RuleExpr.uses, RuleExpr.tokens, List.map_singleton, List.Sublist.refl]
  | .name t => by
    simp only [RuleExpr.uses, RuleExpr.tokens, List.map_singleton, List.Sublist.refl]
  | .literal t => by
    rw [RuleExpr.uses]
    exact List.nil_sublist _
  | .call t arguments => by
    rw [RuleExpr.uses, RuleExpr.tokens, List.map_cons]
    exact (RuleExpr.usesOfAll_sublist bare arguments).cons_cons t
  | .sequence parts => by
    rw [RuleExpr.uses, RuleExpr.tokens]
    exact RuleExpr.usesOfAll_sublist bare parts
  | .alternation parts => by
    rw [RuleExpr.uses, RuleExpr.tokens]
    exact RuleExpr.usesOfAll_sublist bare parts
  | .repeated part _ => by
    rw [RuleExpr.uses, RuleExpr.tokens]
    exact part.uses_sublist bare
  | .tree part _ => by
    rw [RuleExpr.uses, RuleExpr.tokens]
    exact part.uses_sublist bare

theorem RuleExpr.usesOfAll_sublist (bare : Use) : ∀ es : List RuleExpr,
    ((RuleExpr.usesOfAll bare es).map (·.2)).Sublist (RuleExpr.tokensOfAll es)
  | [] => by
    rw [RuleExpr.usesOfAll]
    exact List.nil_sublist _
  | e :: es => by
    rw [RuleExpr.usesOfAll, RuleExpr.tokensOfAll, List.map_append]
    exact (e.uses_sublist bare).append (RuleExpr.usesOfAll_sublist bare es)

end

theorem Rule.occurrences_sublist (grammar : String) (rule : Rule) :
    ((rule.occurrences grammar).map (·.token)).Sublist (rule.parameters ++ rule.body.tokens) := by
  have hparameters : (rule.parameters.map fun p =>
      (⟨grammar, .parameter rule.name.text, p⟩ : Occurrence)).map (·.token) = rule.parameters := by
    rw [List.map_map]
    exact List.map_id _
  have hbody : ((rule.body.uses rule.bareUse).map fun u =>
      (⟨grammar, .use u.1, u.2⟩ : Occurrence)).map (·.token) =
        (rule.body.uses rule.bareUse).map (·.2) :=
    List.map_map ..
  rw [Rule.occurrences, List.map_append, hparameters, hbody]
  exact (List.Sublist.refl _).append (rule.body.uses_sublist rule.bareUse)

theorem Setting.occurrences_sublist (grammar : String) (setting : Setting) :
    ((setting.occurrences grammar).map (·.token)).Sublist [setting.value] := by
  unfold Setting.occurrences
  split
  · exact List.Sublist.refl _
  · split
    · exact List.Sublist.refl _
    · exact List.nil_sublist _

/-! ### Grammars and documents -/

/-- One list for every element, and each a part of another. -/
private theorem flatMap_sublist {α β : Type} {f g : α → List β} (h : ∀ a, (f a).Sublist (g a))
    (as : List α) : (as.flatMap f).Sublist (as.flatMap g) := by
  induction as with
  | nil => exact List.Sublist.refl _
  | cons a as ih =>
    rw [List.flatMap_cons, List.flatMap_cons]
    exact (h a).append ih

/-- The tokens of a grammar that an analysis reads. -/
def Grammar.readTokens (g : Grammar) : List Token :=
  g.options.map (·.name) ++ g.occurrences.map (·.token)

theorem Grammar.readTokens_sublist (g : Grammar) : g.readTokens.Sublist g.tokens := by
  have hterminals := flatMap_sublist
    (fun entry : TerminalEntry => entry.occurrences_sublist g.name.text) g.terminals
  have hrules := flatMap_sublist
    (fun rule : Rule => rule.occurrences_sublist g.name.text) g.rules
  have hoptions := flatMap_sublist
    (fun setting : Setting => setting.occurrences_sublist g.name.text) g.options
  rw [← List.map_eq_flatMap] at hoptions
  simp only [Grammar.readTokens, Grammar.tokens, Grammar.occurrences, List.map_cons,
    List.map_append, List.map_map, List.map_flatMap]
  refine (List.Sublist.refl _).append (List.Sublist.cons_cons _ ?_)
  refine ((((?_ : List.Sublist _ _).append hterminals).append ?_).append hrules).append hoptions
  · show (g.parents.map id).Sublist g.parents
    simp only [List.map_id, List.Sublist.refl]
  · exact List.Sublist.refl _

/-- The tokens of a tree that an analysis reads come in places of their own. -/
theorem Tree.readTokens_sublist (tree : Tree) :
    (tree.grammars.flatMap (·.readTokens)).Sublist tree.tokens :=
  flatMap_sublist (fun g : Grammar => g.readTokens_sublist) tree.grammars

namespace Tree

variable {text : String} {tree : Tree}

theorem token_mem_tokens {o : Occurrence} (ho : o ∈ tree.occurrences) : o.token ∈ tree.tokens := by
  obtain ⟨g, hg, ho⟩ := List.mem_flatMap.mp ho
  refine tree.readTokens_sublist.subset (List.mem_flatMap.mpr ⟨g, hg, ?_⟩)
  exact List.mem_append_right _ (List.mem_map_of_mem ho)

theorem settingName_mem_tokens {g : Grammar} (hg : g ∈ tree.grammars) {setting : Setting}
    (hsetting : setting ∈ g.options) : setting.name ∈ tree.tokens :=
  List.mem_flatMap.mpr ⟨g, hg, List.mem_append_left _ (List.mem_map_of_mem hsetting)⟩

/-- **The tokens of different occurrences do not overlap.** -/
theorem occurrences_pairwise_apart (h : tree.Fits text) :
    tree.occurrences.Pairwise fun o o' => o.token.span.Apart o'.token.span := by
  have hread := h.apart.sublist tree.readTokens_sublist
  rw [List.pairwise_flatMap] at hread
  rw [Tree.occurrences, List.pairwise_flatMap]
  refine ⟨fun g hg => ?_, hread.2.imp fun happart o ho o' ho' => ?_⟩
  · have hsection := (List.pairwise_append.mp (hread.1 g hg)).2.1
    rwa [List.pairwise_map] at hsection
  · exact happart _ (List.mem_append_right _ (List.mem_map_of_mem ho)) _
      (List.mem_append_right _ (List.mem_map_of_mem ho'))

/-- The name of an option does not overlap with the token of an occurrence. -/
theorem settingName_apart (h : tree.Fits text) {g : Grammar} (hg : g ∈ tree.grammars)
    {setting : Setting} (hsetting : setting ∈ g.options) {o : Occurrence}
    (ho : o ∈ tree.occurrences) : setting.name.span.Apart o.token.span := by
  have hread := h.apart.sublist tree.readTokens_sublist
  rw [List.pairwise_flatMap] at hread
  obtain ⟨g', hg', ho⟩ := List.mem_flatMap.mp ho
  have hname : setting.name ∈ g.options.map (·.name) := List.mem_map_of_mem hsetting
  have htoken : o.token ∈ g'.occurrences.map (·.token) := List.mem_map_of_mem ho
  by_cases hsame : g = g'
  · subst hsame
    exact (List.pairwise_append.mp (hread.1 g hg)).2.2 _ hname _ htoken
  · -- what is so of two grammars in one order is so in the other
    have hsymm : Std.Symm fun g g' : Grammar =>
        ∀ t ∈ g.readTokens, ∀ u ∈ g'.readTokens, t.span.Apart u.span :=
      ⟨fun _ _ happart t ht u hu => (happart u hu t ht).symm⟩
    exact hread.2.forall hg hg' hsame _ (List.mem_append_left _ hname) _
      (List.mem_append_right _ htoken)

end Tree

end GrammarIndex
