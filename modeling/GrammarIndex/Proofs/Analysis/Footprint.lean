import GrammarIndex.Proofs.Analysis.Moves
import GrammarIndex.Proofs.Grammar.Owners

/-!
# What a pass leaves behind

A pass writes for its own document only.  Once the document is forgotten, the
registry is what it was, with placeholders for the names that the pass has
mentioned.  Nor can a pass tell whether placeholders for those names are there from
the beginning: it goes the same way, finds the same handles, and ends in the same
registry.

## Main definitions

* `Pass.mention` — the pass over a registry in which some names have been mentioned.
* `Pass.Knows` — the registry of the pass has the name.

## Main results

* `Pass.forget_play` — **forgetting the document of a pass leaves the placeholders
  only.**
* `Pass.walk_mention` — **a walk goes the same way if its names were mentioned
  before.**
-/

namespace GrammarIndex

namespace Registry

/-- The handle that a name resolves to is in use from then on. -/
theorem WellFormed.resolve_lt {r : Registry} (h : r.WellFormed) (name : String) :
    (r.resolve name).1.index < (r.resolve name).2.size := by
  obtain ⟨s, hs, -⟩ :=
    (h.resolve name).lookup?_eq_some_iff.mp (lookup?_resolve_self r name)
  exact symbol?_isSome_iff.mp (by rw [hs]; rfl)

/-- A use states its kind before or after other names are mentioned. -/
theorem setKindIfUnset_mention {r : Registry} {i : SymbolId} (hi : i.index < r.size)
    (d : DocumentId) (kind : Kind) (parent : Option SymbolId) (names : List String) :
    ((r.mention names).setKindIfUnset d i kind parent).2 =
      (r.setKindIfUnset d i kind parent).2.mention names := by
  unfold setKindIfUnset
  rw [kind?_mention]
  split
  · exact write_mention hi d _ names
  · rfl

end Registry

namespace Pass

/-! ### One move -/

/-- Everything that a move can do to the registry: the document of the pass says
something about the name of the move, or the name is mentioned and a suggestion is
refused, or nothing happens. -/
theorem registry_perform (p : Pass) (m : Move) :
    (∃ name change, m.names = [name] ∧ Symbol.IsSpeech p.document change ∧
      (p.perform m).registry =
        (p.registry.resolve name).2.write p.document (p.registry.resolve name).1 change) ∨
    (∃ name, m.names = [name] ∧ (p.perform m).registry = (p.registry.resolve name).2) ∨
    (m.names = [] ∧ (p.perform m).registry = p.registry) := by
  cases m with
  | state name kind owner =>
    exact Or.inl ⟨name, _, rfl, Symbol.isSpeech_state p.document ⟨kind, owner.bind p.owner?⟩, rfl⟩
  | suggest name kind owner =>
    simp only [perform, declareIfUnset, Registry.setKindIfUnset]
    split
    · exact Or.inl ⟨name, _, rfl, Symbol.isSpeech_state p.document ⟨kind, owner.bind p.owner?⟩,
        rfl⟩
    · -- a suggestion that is refused has mentioned its name all the same
      exact Or.inr (Or.inl ⟨name, rfl, rfl⟩)
  | define name range =>
    exact Or.inl ⟨name, _, rfl, Symbol.isSpeech_addDefinition p.document range, rfl⟩
  | refer name range =>
    exact Or.inl ⟨name, _, rfl, Symbol.isSpeech_addReference p.document range, rfl⟩
  | note m range name => exact Or.inr (Or.inr ⟨rfl, rfl⟩)
  | rescope change => exact Or.inr (Or.inr ⟨rfl, rfl⟩)

theorem wellFormed_perform {p : Pass} (h : p.registry.WellFormed) (m : Move) :
    (p.perform m).registry.WellFormed := by
  rcases registry_perform p m with ⟨name, change, -, speech, heq⟩ | ⟨name, -, heq⟩ | ⟨-, heq⟩
  · rw [heq]
    exact (h.resolve name).write speech _
  · rw [heq]
    exact h.resolve name
  · rw [heq]
    exact h

theorem keeps_perform (p : Pass) (m : Move) : p.registry.Keeps (p.perform m).registry := by
  rcases registry_perform p m with ⟨name, change, -, speech, heq⟩ | ⟨name, -, heq⟩ | ⟨-, heq⟩
  · rw [heq]
    exact (Registry.Keeps.resolve p.registry name).trans (.write speech _ _)
  · rw [heq]
    exact .resolve p.registry name
  · rw [heq]
    exact .refl p.registry

/-- Once the document is forgotten, only the placeholders of a move remain. -/
theorem forget_perform {p : Pass} (h : p.registry.WellFormed) (m : Move) :
    (p.perform m).registry.forget p.document = (p.registry.forget p.document).mention m.names := by
  rcases registry_perform p m with
    ⟨name, change, hnames, speech, heq⟩ | ⟨name, hnames, heq⟩ | ⟨hnames, heq⟩
  · rw [heq, hnames, (h.resolve name).forget_write speech, Registry.forget_resolve]
    rfl
  · rw [heq, hnames, Registry.forget_resolve]
    rfl
  · rw [heq, hnames]
    rfl

/-! ### Several moves -/

theorem wellFormed_play {p : Pass} (h : p.registry.WellFormed) (ms : List Move) :
    (p.play ms).registry.WellFormed :=
  play_induction (motive := fun q => q.registry.WellFormed) (fun _ m hq => wellFormed_perform hq m)
    h ms

theorem keeps_play (p : Pass) (ms : List Move) : p.registry.Keeps (p.play ms).registry :=
  play_induction (motive := fun q => p.registry.Keeps q.registry)
    (fun q m hq => hq.trans (keeps_perform q m)) (.refl p.registry) ms

/-- **Forgetting the document of a pass leaves the placeholders only.** -/
theorem forget_play {p : Pass} (h : p.registry.WellFormed) (ms : List Move) :
    (p.play ms).registry.forget p.document =
      (p.registry.forget p.document).mention (Move.namesOfAll ms) := by
  induction ms generalizing p with
  | nil => rfl
  | cons m ms ih =>
    have htail := ih (wellFormed_perform h m)
    rw [document_perform] at htail
    rw [play_cons, htail, forget_perform h, ← Registry.mention_append]
    rfl

/-! ### Placeholders from the beginning -/

/-- The pass over a registry in which some names have been mentioned. -/
def mention (p : Pass) (names : List String) : Pass :=
  { p with registry := p.registry.mention names }

@[simp] theorem mention_nil (p : Pass) : p.mention [] = p := rfl

/-- The registry of the pass has the name. -/
def Knows (p : Pass) (name : String) : Prop := ∃ i, p.registry.lookup? name = some i

/-- A pass knows the name of a move that it has made. -/
theorem knows_of_mem_names (p : Pass) {m : Move} {name : String} (hname : name ∈ m.names) :
    (p.perform m).Knows name := by
  rcases registry_perform p m with
    ⟨name', change, hnames, -, heq⟩ | ⟨name', hnames, heq⟩ | ⟨hnames, -⟩
  · rw [hnames, List.mem_singleton] at hname
    subst hname
    exact ⟨_, by rw [heq, Registry.lookup?_write, Registry.lookup?_resolve_self]⟩
  · rw [hnames, List.mem_singleton] at hname
    subst hname
    exact ⟨_, by rw [heq, Registry.lookup?_resolve_self]⟩
  · rw [hnames] at hname
    exact absurd hname List.not_mem_nil

theorem Knows.play {p : Pass} {name : String} (h : p.Knows name) (ms : List Move) :
    (p.play ms).Knows name := by
  obtain ⟨i, hi⟩ := h
  exact ⟨i, (keeps_play p ms).lookup? hi⟩

theorem knows_of_mem_namesOfAll (p : Pass) {ms : List Move} {name : String}
    (hname : name ∈ Move.namesOfAll ms) : (p.play ms).Knows name := by
  induction ms generalizing p with
  | nil => exact absurd hname List.not_mem_nil
  | cons m ms ih =>
    rw [Move.namesOfAll, List.flatMap_cons, List.mem_append] at hname
    rcases hname with hname | hname
    · exact (knows_of_mem_names p hname).play ms
    · exact ih (p.perform m) hname

/-- The owner of a move is found among placeholders as it is found without. -/
theorem owner?_mention {p : Pass} {owner : Option String} (h : ∀ scope ∈ owner, p.Knows scope)
    (names : List String) : owner.bind (p.mention names).owner? = owner.bind p.owner? := by
  cases owner with
  | none => rfl
  | some scope =>
    obtain ⟨i, hi⟩ := h scope rfl
    have hi' : (p.mention names).owner? scope = some i := Registry.lookup?_mention hi names
    rw [Option.bind_some, Option.bind_some, hi']
    exact hi.symm

/-- A move whose name was mentioned first does what it does without, and leaves the
other placeholders alone. -/
theorem perform_mention {p : Pass} (h : p.registry.WellFormed) {m : Move}
    (howner : ∀ scope ∈ m.owner?, p.Knows scope) (names : List String) :
    (p.mention (m.names ++ names)).perform m = (p.perform m).mention names := by
  cases m with
  | state name kind owner =>
    -- the owner was known before, and so it has the same handle
    have hparent : owner.bind (p.mention ([name] ++ names)).owner? = owner.bind p.owner? :=
      owner?_mention howner _
    simp only [perform, Move.names, hparent, declare]
    simp only [mention, List.singleton_append, Registry.resolve_mention_cons]
    simp only [Registry.setKind, Registry.write_mention (h.resolve_lt name)]
  | suggest name kind owner =>
    have hparent : owner.bind (p.mention ([name] ++ names)).owner? = owner.bind p.owner? :=
      owner?_mention howner _
    simp only [perform, Move.names, hparent, declareIfUnset]
    simp only [mention, List.singleton_append, Registry.resolve_mention_cons]
    simp only [Registry.setKindIfUnset_mention (h.resolve_lt name)]
  | define name range =>
    simp only [perform, resolve, addDefinition, mention, Move.names, List.singleton_append,
      Registry.resolve_mention_cons]
    simp only [Registry.addDefinition, Registry.write_mention (h.resolve_lt name)]
  | refer name range =>
    simp only [perform, resolve, addReference, mention, Move.names, List.singleton_append,
      Registry.resolve_mention_cons]
    simp only [Registry.addReference, Registry.write_mention (h.resolve_lt name)]
  | note m range name => rfl
  | rescope change => rfl

theorem play_mention {p : Pass} (h : p.registry.WellFormed) {ms : List Move}
    (howner : ∀ m ∈ ms, ∀ scope ∈ m.owner?, p.Knows scope) (names : List String) :
    (p.mention (Move.namesOfAll ms ++ names)).play ms = (p.play ms).mention names := by
  induction ms generalizing p with
  | nil => rfl
  | cons m ms ih =>
    have hsplit : Move.namesOfAll (m :: ms) ++ names = m.names ++ (Move.namesOfAll ms ++ names) :=
      List.append_assoc ..
    rw [play_cons, hsplit, perform_mention h (howner m List.mem_cons_self), play_cons]
    -- what was known to the first move is known to the others
    refine ih (wellFormed_perform h m) ?_
    intro m' hm' scope hscope
    exact (howner m' (List.mem_cons_of_mem _ hm') scope hscope).play [m]

/-! ### Visits -/

/-- Placeholders mean nothing to a use. -/
theorem meaning_mention (p : Pass) (names : List String) (grammar : String) (use : Use)
    (name : String) : (p.mention names).meaning grammar use name = p.meaning grammar use name := by
  have himported : ∀ accepts,
      (p.mention names).importedName? name accepts = p.importedName? name accepts := by
    intro accepts
    simp only [importedName?, mention, Registry.kindNamed?_mention]
  cases use <;> simp only [meaning, terminalMeaning, symbolMeaning, himported] <;> rfl

theorem recording_mention (p : Pass) (names : List String) (grammar : String) (role : Role)
    (name : String) (range : Range) :
    (p.mention names).recording grammar role name range =
      p.recording grammar role name range := by
  cases role with
  | use use => cases use <;> simp only [recording, meaning_mention]
  | _ => rfl

/-- The owners that the moves of an occurrence look up are its own. -/
theorem owner?_announcement {o : Occurrence} {name : String} {m : Move}
    (hm : m ∈ announcement o.grammar o.role name) {scope : String} (hs : scope ∈ m.owner?) :
    scope ∈ o.owner? := by
  obtain ⟨grammar, role, token⟩ := o
  cases role with
  | use use => cases use <;> simp_all [announcement, Occurrence.owner?, Move.owner?]
  | _ => simp_all [announcement, Move.owner?]

theorem owner?_recording {p : Pass} {o : Occurrence} {name : String} {range : Range} {m : Move}
    (hm : m ∈ p.recording o.grammar o.role name range) {scope : String} (hs : scope ∈ m.owner?) :
    scope ∈ o.owner? := by
  obtain ⟨grammar, role, token⟩ := o
  cases role with
  | use use =>
    have hnone : m.owner? = none := by
      cases use with
      | parent =>
        simp only [recording, List.mem_cons, List.not_mem_nil, or_false] at hm
        rcases hm with rfl | rfl <;> rfl
      | _ =>
        rw [List.mem_singleton.mp hm]
        exact Meaning.owner?_move _ name range
    rw [hnone] at hs
    exact absurd hs (by simp)
  | _ =>
    simp only [recording, definition, List.mem_append, List.mem_cons, List.not_mem_nil,
      or_false] at hm
    rcases hm with (rfl | rfl) | rfl <;> simp_all [Move.owner?, Occurrence.owner?]

/-- The outcome of a walk, over a registry in which some more names were mentioned. -/
def mentionAfter (names : List String) : Except Stopped Pass → Except Stopped Pass
  | .ok p => .ok (p.mention names)
  | .error stopped => .error ⟨stopped.fault, stopped.reached.mention names⟩

@[simp] theorem mentionAfter_nil (outcome : Except Stopped Pass) :
    mentionAfter [] outcome = outcome := by
  cases outcome <;> rfl

/-- A visit goes the same way if its names were mentioned before. -/
theorem visit_mention {p : Pass} (h : p.registry.WellFormed) {o : Occurrence}
    (howner : ∀ scope ∈ o.owner?, p.Knows scope) (names : List String) :
    (p.mention (Move.namesOfAll (p.visitMoves o) ++ names)).visit o =
      mentionAfter names (p.visit o) := by
  rw [visit_eq, visit_eq, visitMoves]
  cases o.name? with
  | none => rfl
  | some name =>
    -- announcement and recording look up the owner of the occurrence and no other
    have hannounced : ∀ m ∈ announcement o.grammar o.role name, ∀ scope ∈ m.owner?,
        p.Knows scope :=
      fun m hm scope hs => howner scope (owner?_announcement hm hs)
    have hrange : ∀ names', (p.mention names').rangeOf o.token.span = p.rangeOf o.token.span :=
      fun _ => rfl
    simp only [hrange]
    cases p.rangeOf o.token.span with
    | error fault => simp only [play_mention h hannounced, mentionAfter]
    | ok range =>
      have hrecorded : ∀ m ∈ (p.play (announcement o.grammar o.role name)).recording o.grammar
          o.role name range, ∀ scope ∈ m.owner?,
          (p.play (announcement o.grammar o.role name)).Knows scope :=
        fun m hm scope hs => (howner scope (owner?_recording hm hs)).play _
      simp only [Move.namesOfAll_append, List.append_assoc, play_mention h hannounced,
        recording_mention, play_mention (wellFormed_play h _) hrecorded, mentionAfter]

/-- An occurrence defines the scopes that it opens. -/
theorem scopes_subset_namesOfAll (p : Pass) {o : Occurrence} {name : String}
    (hname : o.name? = some name) (range : Range) :
    o.scopes ⊆ Move.namesOfAll (p.recording o.grammar o.role name range) := by
  obtain ⟨grammar, role, token⟩ := o
  intro scope hs
  cases role with
  | grammar =>
    have htext : token.text = name := Option.some.inj hname
    simp_all [Occurrence.scopes, recording, definition, Move.namesOfAll, Move.names]
  | nonterminal =>
    have htext : token.text = name := Option.some.inj hname
    simp_all [Occurrence.scopes, recording, definition, Move.namesOfAll, Move.names]
  | _ => exact absurd hs List.not_mem_nil

/-- A visit that is not stopped opens the scopes of its occurrence. -/
theorem knows_of_visit_eq_ok {p q : Pass} {o : Occurrence} (h : p.visit o = .ok q)
    {scope : String} (hs : scope ∈ o.scopes) : q.Knows scope := by
  obtain ⟨name, range, hname, -, hmoves, rfl⟩ := visit_eq_ok h
  refine knows_of_mem_namesOfAll p ?_
  rw [hmoves, Move.namesOfAll_append]
  exact List.mem_append_right _ (scopes_subset_namesOfAll _ hname range hs)

/-! ### Walks -/

/-- **A walk goes the same way if its names were mentioned before**, provided that
owners come before what they own. -/
theorem walk_mention {p : Pass} (h : p.registry.WellFormed) {known : List String}
    (hknown : ∀ scope ∈ known, p.Knows scope) {os : List Occurrence}
    (howners : OwnersFirst known os) (names : List String) :
    (p.mention (Move.namesOfAll (p.walkMoves os) ++ names)).walk os =
      mentionAfter names (p.walk os) := by
  induction os generalizing p known with
  | nil => rfl
  | cons o os ih =>
    have howner : ∀ scope ∈ o.owner?, p.Knows scope :=
      fun scope hs => hknown scope (howners.1 scope hs)
    have hreached := reached_visit p o
    rw [walk_cons, walk_cons, walkMoves]
    cases hvisit : p.visit o with
    | error stopped =>
      simp only [visit_mention h howner, hvisit, mentionAfter]
      rfl
    | ok q =>
      rw [hvisit] at hreached
      have hq : q = p.play (p.visitMoves o) := hreached
      have hwellFormed : q.registry.WellFormed := hq ▸ wellFormed_play h _
      -- the rest may rely on the scopes that this occurrence has opened
      have hknown' : ∀ scope ∈ o.scopes ++ known, q.Knows scope := by
        intro scope hs
        rcases List.mem_append.mp hs with hs | hs
        · exact knows_of_visit_eq_ok hvisit hs
        · exact hq ▸ (hknown scope hs).play _
      simp only [Move.namesOfAll_append, List.append_assoc, visit_mention h howner, hvisit,
        mentionAfter]
      exact ih hwellFormed hknown' howners.2

end Pass

end GrammarIndex
