import GrammarIndex.Grammar.Occurrence
import GrammarIndex.Symbol.Name

/-!
# Owners come first

A symbol that is declared inside a scope has the scope for its owner: a grammar, or
the rule of a template parameter.  The occurrences of a document are ordered so that
an owner is declared before anything that it owns.

## Main definitions

* `Occurrence.owner?` — the scope that owns what the occurrence declares.
* `Occurrence.scopes` — the scopes that the occurrence opens.
* `OwnersFirst known os` — every owner in `os` is among `known`, or is opened by an
  earlier occurrence.

## Main results

* `Tree.ownersFirst_occurrences` — **the occurrences of a document have their owners
  first.**
-/

namespace GrammarIndex

/-- The qualified name of the scope that owns what an occurrence declares. -/
def Occurrence.owner? (o : Occurrence) : Option String :=
  match o.role with
  | .context | .terminal | .nonterminal => some o.grammar
  | .parameter rule => some (qualify o.grammar rule)
  | .use .action | .use .virtual => some o.grammar
  | _ => none

/-- The qualified names of the scopes that an occurrence opens. -/
def Occurrence.scopes (o : Occurrence) : List String :=
  match o.role with
  | .grammar => [o.token.text]
  | .nonterminal => [qualify o.grammar o.token.text]
  | _ => []

/-- Every owner of an occurrence in the list is known from the beginning, or is a
scope that an earlier occurrence opens. -/
def OwnersFirst (known : List String) : List Occurrence → Prop
  | [] => True
  | o :: os => (∀ scope ∈ o.owner?, scope ∈ known) ∧ OwnersFirst (o.scopes ++ known) os

namespace OwnersFirst

theorem mono {known known' : List String} (hsub : known ⊆ known') {os : List Occurrence}
    (h : OwnersFirst known os) : OwnersFirst known' os := by
  induction os generalizing known known' with
  | nil => trivial
  | cons o os ih =>
    refine ⟨fun scope hs => hsub (h.1 scope hs), ih ?_ h.2⟩
    exact List.append_subset.mpr ⟨List.subset_append_left _ _,
      fun _ hk => List.mem_append_right _ (hsub hk)⟩

/-- If all owners are known from the beginning, the order does not matter. -/
theorem of_forall {known : List String} {os : List Occurrence}
    (h : ∀ o ∈ os, ∀ scope ∈ o.owner?, scope ∈ known) : OwnersFirst known os := by
  induction os generalizing known with
  | nil => trivial
  | cons o os ih =>
    refine ⟨h o List.mem_cons_self, ih ?_⟩
    intro o' ho' scope hs
    exact List.mem_append_right _ (h o' (List.mem_cons_of_mem _ ho') scope hs)

/-- One list after another: the second may rely on the scopes of the first. -/
theorem append {known : List String} {os os' : List Occurrence} (h : OwnersFirst known os)
    (h' : OwnersFirst (os.flatMap (·.scopes) ++ known) os') : OwnersFirst known (os ++ os') := by
  induction os generalizing known with
  | nil => exact h'
  | cons o os ih =>
    refine ⟨h.1, ih h.2 (mono ?_ h')⟩
    intro scope hs
    simp only [List.flatMap_cons, List.mem_append] at hs ⊢
    rcases hs with (ho | hos) | hknown
    · exact Or.inr (Or.inl ho)
    · exact Or.inl hos
    · exact Or.inr (Or.inr hknown)

/-- Lists whose owners are all known from the beginning, one after another. -/
theorem append_of_left {known : List String} {os os' : List Occurrence}
    (h : OwnersFirst known os) (h' : OwnersFirst known os') : OwnersFirst known (os ++ os') :=
  h.append (h'.mono (List.subset_append_right _ _))

theorem flatMap {α : Type} {known : List String} {f : α → List Occurrence} {as : List α}
    (h : ∀ a ∈ as, OwnersFirst known (f a)) : OwnersFirst known (as.flatMap f) := by
  induction as with
  | nil => trivial
  | cons a as ih =>
    rw [List.flatMap_cons]
    exact append_of_left (h a List.mem_cons_self)
      (ih fun a' ha' => h a' (List.mem_cons_of_mem _ ha'))

end OwnersFirst

/-! ### The sections of a grammar -/

mutual

theorem TerminalEntry.ownersFirst_occurrences (grammar : String) :
    ∀ entry : TerminalEntry, OwnersFirst [grammar] (entry.occurrences grammar)
  | .context name entries => by
    rw [TerminalEntry.occurrences]
    exact ⟨by simp [Occurrence.owner?],
      TerminalEntry.ownersFirst_occurrencesOfAll grammar entries⟩
  | .terminal name definition => by
    rw [TerminalEntry.occurrences]
    refine OwnersFirst.of_forall ?_
    intro o ho
    rcases List.mem_cons.mp ho with rfl | ho
    · simp [Occurrence.owner?]
    · obtain ⟨token, -, rfl⟩ := List.mem_map.mp ho
      simp [Occurrence.owner?]

theorem TerminalEntry.ownersFirst_occurrencesOfAll (grammar : String) :
    ∀ entries : List TerminalEntry,
      OwnersFirst [grammar] (TerminalEntry.occurrencesOfAll grammar entries)
  | [] => by
    rw [TerminalEntry.occurrencesOfAll]
    trivial
  | entry :: entries => by
    rw [TerminalEntry.occurrencesOfAll]
    exact (TerminalEntry.ownersFirst_occurrences grammar entry).append_of_left
      (TerminalEntry.ownersFirst_occurrencesOfAll grammar entries)

end

/-- A rule relies on its grammar and on its own variable. -/
theorem Rule.ownersFirst_occurrences {grammar : String} {rule : Rule} {known : List String}
    (hgrammar : grammar ∈ known) (hrule : qualify grammar rule.name.text ∈ known) :
    OwnersFirst known (rule.occurrences grammar) := by
  refine OwnersFirst.of_forall ?_
  intro o ho scope hs
  rcases List.mem_append.mp ho with ho | ho
  · obtain ⟨p, -, rfl⟩ := List.mem_map.mp ho
    rw [Occurrence.owner?, Option.mem_some_iff] at hs
    exact hs ▸ hrule
  · obtain ⟨⟨use, token⟩, -, rfl⟩ := List.mem_map.mp ho
    have hscope : scope = grammar := by
      cases use <;> simp_all [Occurrence.owner?]
    exact hscope ▸ hgrammar

theorem Setting.ownersFirst_occurrences (grammar : String) (setting : Setting)
    (known : List String) : OwnersFirst known (setting.occurrences grammar) := by
  refine OwnersFirst.of_forall ?_
  intro o ho scope hs
  unfold Setting.occurrences at ho
  split at ho
  · rw [List.mem_singleton.mp ho] at hs
    simp [Occurrence.owner?] at hs
  · split at ho
    · rw [List.mem_singleton.mp ho] at hs
      simp [Occurrence.owner?] at hs
    · exact absurd ho List.not_mem_nil

/-- A grammar relies on nothing: it opens its own scope first, and the names of all
rules come before the first parameter. -/
theorem Grammar.ownersFirst_occurrences (g : Grammar) (known : List String) :
    OwnersFirst known g.occurrences := by
  let name := g.name.text
  have hparents : OwnersFirst [name] (g.parents.map fun p => ⟨name, .use .parent, p⟩) :=
    .of_forall fun o ho scope hs => by
      obtain ⟨p, -, rfl⟩ := List.mem_map.mp ho
      simp [Occurrence.owner?] at hs
  have hterminals : OwnersFirst [name] (g.terminals.flatMap (·.occurrences name)) :=
    .flatMap fun entry _ => entry.ownersFirst_occurrences name
  have hvariables :
      OwnersFirst [name] (g.rules.map fun rule => ⟨name, .nonterminal, rule.name⟩) :=
    .of_forall fun o ho scope hs => by
      obtain ⟨rule, -, rfl⟩ := List.mem_map.mp ho
      rw [Occurrence.owner?, Option.mem_some_iff] at hs
      exact hs ▸ List.mem_singleton_self name
  -- the variables have opened the scopes that the parameters of their rules rely on
  have hrules : OwnersFirst
      ((g.rules.map fun rule => (⟨name, .nonterminal, rule.name⟩ : Occurrence)).flatMap
        (·.scopes) ++ [name])
      (g.rules.flatMap (·.occurrences name)) := by
    refine .flatMap fun rule hrule => Rule.ownersFirst_occurrences (by simp) ?_
    refine List.mem_append_left _ (List.mem_flatMap.mpr ⟨⟨name, .nonterminal, rule.name⟩, ?_, ?_⟩)
    · exact List.mem_map.mpr ⟨rule, hrule, rfl⟩
    · exact List.mem_singleton_self _
  have hoptions : OwnersFirst [name] (g.options.flatMap (·.occurrences name)) :=
    .flatMap fun setting _ => setting.ownersFirst_occurrences name _
  have hopened : [name] ⊆ [name] ++ known := List.subset_append_left _ _
  refine ⟨by simp [Occurrence.owner?], OwnersFirst.mono hopened ?_⟩
  refine OwnersFirst.append_of_left ?_ hoptions
  rw [List.append_assoc]
  exact (hparents.append_of_left hterminals).append_of_left (hvariables.append hrules)

/-- **The occurrences of a document have their owners first.** -/
theorem Tree.ownersFirst_occurrences (tree : Tree) : OwnersFirst [] tree.occurrences :=
  .flatMap fun g _ => g.ownersFirst_occurrences []

end GrammarIndex
