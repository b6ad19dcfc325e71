import GrammarIndex.Proofs.Analysis.Reanalysis
import GrammarIndex.Proofs.Registry.Statements
import GrammarIndex.Proofs.Symbol.Name
import Mathlib.Data.List.Induction

/-!
# What analyses state

An analysis states a kind for a name, and who owns it.  The owner is known by a handle then, but
the name was made up from the name of the owner, and neither names nor handles change afterwards.
So a law about a name, its kind and the name of its owner holds of every statement in a registry,
whatever was analysed and forgotten, as soon as every occurrence keeps to it.

## Main definitions

* `Registry.Tells` — a statement, its parent told by name, satisfies a law.
* `Move.States` — a move that states nothing but what satisfies the law.
* `Occurrence.Says` — what an occurrence states: its own name, in the scope that owns it.
* `Registry.Event.isWhole`, `Registry.Event.tree?` — an event in which a document is analysed or
  forgotten, and the tree that is analysed.

## Main results

* `Pass.states_visitMoves` — **an occurrence states what it says**, and nothing else.
* `Pass.told_perform`, `Pass.told_walk` — one move, and a walk, stopped or not.
* `Registry.told_after` — **a law that all occurrences keep to holds after every history of
  analyses.**
-/

namespace GrammarIndex

variable {law : String → Kind → Option String → Prop}

namespace Registry

variable {r r' : Registry}

/-- The statement about a symbol of this name satisfies the law, its parent told by name. -/
def Tells (r : Registry) (law : String → Kind → Option String → Prop) (name : String)
    (st : Statement) : Prop :=
  match st.parent with
  | some i => ∃ s, r.symbol? i = some s ∧ law name st.kind (some s.qualifiedName)
  | none => law name st.kind none

/-- A parent keeps its handle and its name. -/
theorem Tells.keeps (hkeeps : r.Keeps r') {name : String} {st : Statement}
    (h : r.Tells law name st) : r'.Tells law name st := by
  obtain ⟨kind, parent⟩ := st
  cases parent with
  | none => exact h
  | some i =>
    obtain ⟨s, hs, hlaw⟩ := h
    obtain ⟨s', hs', -, hname⟩ := hkeeps.symbol? hs
    exact ⟨s', hs', hname ▸ hlaw⟩

/-- Every statement satisfies the law. -/
def Told (r : Registry) (law : String → Kind → Option String → Prop) : Prop :=
  r.EveryStatement (r.Tells law)

theorem Told.empty : Registry.empty.Told law := EveryStatement.empty

theorem Told.forget (h : r.Told law) (d : DocumentId) : (r.forget d).Told law :=
  (EveryStatement.forget h d).mono (.keeps (.forget r d))

end Registry

/-! ### Moves -/

/-- The move states nothing but what satisfies the law. -/
def Move.States (law : String → Kind → Option String → Prop) : Move → Prop
  | state name kind owner | suggest name kind owner => law name kind owner
  | _ => True

/-- What an occurrence states: a kind for its own name in the scope that owns it.  It is the kind
of a grammar if no scope owns it, and the name is one that is written as it stands or that of a
virtual symbol. -/
structure Occurrence.Says (o : Occurrence) (name : String) (kind : Kind) (owner : Option String) :
    Prop where
  /-- The owner is that of the occurrence. -/
  owner_eq : owner = o.owner?
  /-- The name is that of the occurrence, in the scope of the owner. -/
  name_eq : ∃ own, o.name? = some own ∧ name = qualifyIn o.owner? own
  /-- Only a grammar has no owner. -/
  grammar : o.owner? = none → kind = .grammar
  /-- No other literal names a symbol that it states a kind for. -/
  written : o.role.isLiteral = false ∨ o.role = .use .virtual

namespace Pass

variable {p : Pass}

theorem states_announcement {grammar own : String} {role : Role} {token : Token}
    (hname : Occurrence.name? ⟨grammar, role, token⟩ = some own) :
    ∀ m ∈ announcement grammar role own, m.States (Occurrence.Says ⟨grammar, role, token⟩) := by
  -- parents, actions and virtual symbols are stated where they are used
  cases role with
  | grammar => simp [announcement, Move.States]
  | use u =>
    cases u with
    | parent =>
      intro m hm
      rw [List.mem_singleton.mp hm]
      exact ⟨rfl, ⟨own, hname, rfl⟩, fun _ => rfl, .inl rfl⟩
    | action =>
      intro m hm
      rw [List.mem_singleton.mp hm]
      exact ⟨rfl, ⟨own, hname, rfl⟩, fun howner => absurd howner (by simp [Occurrence.owner?]),
        .inl rfl⟩
    | virtual =>
      intro m hm
      rw [List.mem_singleton.mp hm]
      exact ⟨rfl, ⟨own, hname, rfl⟩, fun howner => absurd howner (by simp [Occurrence.owner?]),
        .inr rfl⟩
    | _ => exact fun m hm => absurd hm List.not_mem_nil
  | _ => exact fun m hm => absurd hm List.not_mem_nil

theorem states_recording {grammar own : String} {role : Role} {token : Token}
    (hname : Occurrence.name? ⟨grammar, role, token⟩ = some own) (range : Range) :
    ∀ m ∈ p.recording grammar role own range,
      m.States (Occurrence.Says ⟨grammar, role, token⟩) := by
  -- a definition states its name in its scope, and whatever comes after it states nothing
  have hdefinition : ∀ (kind : Kind) (owner : Option String) (after : List Move),
      owner = Occurrence.owner? ⟨grammar, role, token⟩ → (owner = none → kind = .grammar) →
      role.isLiteral = false →
      (∀ m ∈ after, m.States (Occurrence.Says ⟨grammar, role, token⟩)) →
      ∀ m ∈ definition (qualifyIn owner own) kind owner range ++ after,
        m.States (Occurrence.Says ⟨grammar, role, token⟩) := by
    rintro kind owner after rfl hgrammar hliteral hafter m hm
    rcases List.mem_append.mp hm with hm | hm
    · rcases List.mem_pair.mp hm with rfl | rfl
      · exact ⟨rfl, ⟨own, hname, rfl⟩, hgrammar, .inl hliteral⟩
      · trivial
    · exact hafter m hm
  have hrescope : ∀ change : Scope → Scope,
      ∀ m ∈ [Move.rescope change], m.States (Occurrence.Says ⟨grammar, role, token⟩) := by
    intro change m hm
    rw [List.mem_singleton.mp hm]
    trivial
  cases role with
  | grammar => exact hdefinition .grammar none [] rfl (fun _ => rfl) rfl (by simp)
  | context => exact hdefinition .context (some grammar) _ rfl (by simp) rfl (hrescope _)
  | terminal => exact hdefinition .terminal (some grammar) _ rfl (by simp) rfl (hrescope _)
  | nonterminal => exact hdefinition .nonterminal (some grammar) _ rfl (by simp) rfl (hrescope _)
  | parameter rule =>
    exact hdefinition .parameter (some (qualify grammar rule)) [] rfl (by simp) rfl (by simp)
  | use u =>
    have hmeaning : ∀ m ∈ [(p.meaning grammar u own).move own range],
        m.States (Occurrence.Says ⟨grammar, .use u, token⟩) := by
      intro m hm
      rw [List.mem_singleton.mp hm]
      cases p.meaning grammar u own <;> trivial
    cases u with
    | parent =>
      intro m hm
      rcases List.mem_pair.mp hm with rfl | rfl <;> trivial
    | _ => exact hmeaning

/-- **An occurrence states what it says**, and nothing else. -/
theorem states_visitMoves (o : Occurrence) : ∀ m ∈ p.visitMoves o, m.States o.Says := by
  intro m hm
  unfold visitMoves at hm
  cases hname : o.name? with
  | none =>
    rw [hname] at hm
    exact absurd hm List.not_mem_nil
  | some own =>
    rw [hname] at hm
    cases hrange : p.rangeOf o.token.span with
    | error fault =>
      simp only [hrange] at hm
      exact states_announcement hname m hm
    | ok range =>
      simp only [hrange] at hm
      rcases List.mem_append.mp hm with hm | hm
      · exact states_announcement hname m hm
      · exact states_recording hname range m hm

/-- The owners that a visit looks up are that of the occurrence. -/
theorem owner?_of_mem_visitMoves {o : Occurrence} {m : Move} (hm : m ∈ p.visitMoves o)
    {scope : String} (hscope : scope ∈ m.owner?) : scope ∈ o.owner? := by
  have hsaid := states_visitMoves o m hm
  cases m with
  | state name kind owner => exact hsaid.owner_eq ▸ hscope
  | suggest name kind owner => exact hsaid.owner_eq ▸ hscope
  | _ => exact absurd hscope (by simp [Move.owner?])

/-! ### A law for all statements -/

/-- **One move**, whose owner has been mentioned. -/
theorem told_perform (hwf : p.registry.WellFormed) (h : p.registry.Told law) {m : Move}
    (hm : m.States law) (howner : ∀ scope ∈ m.owner?, p.Knows scope) :
    (p.perform m).registry.Told law := by
  -- what was stated before satisfies the law still
  have hbefore : p.registry.EveryStatement ((p.perform m).registry.Tells law) :=
    Registry.EveryStatement.mono h (.keeps (keeps_perform p m))
  -- a new statement satisfies it, since its scope is known by then
  have hstated : ∀ {name : String} {kind : Kind} {owner : Option String}, law name kind owner →
      (∀ scope ∈ owner, p.Knows scope) →
      ∀ s, (p.registry.resolve name).2.symbol? (p.registry.resolve name).1 = some s →
        p.registry.Tells law s.qualifiedName ⟨kind, owner.bind p.owner?⟩ := by
    intro name kind owner hlaw hknown s hs
    have hname : s.qualifiedName = name := by
      obtain ⟨s', hs', hname⟩ := (hwf.resolve name).lookup?_eq_some_iff.mp
        (Registry.lookup?_resolve_self p.registry name)
      rw [Option.some.inj (hs.symm.trans hs'), hname]
    -- the handle of the scope is that of a symbol with the name of the scope
    rw [hname]
    cases owner with
    | none => exact hlaw
    | some scope =>
      obtain ⟨i, hi⟩ := hknown scope rfl
      obtain ⟨t, ht, rfl⟩ := hwf.lookup?_eq_some_iff.mp hi
      have howner : p.owner? t.qualifiedName = some i := hi
      rw [Option.bind_some, howner]
      exact ⟨t, ht, hlaw⟩
  cases m with
  | state name kind owner =>
    exact (hbefore.resolve name).setKind _ _ fun s hs =>
      (hstated hm howner s hs).keeps (keeps_perform p _)
  | suggest name kind owner =>
    exact (hbefore.resolve name).setKindIfUnset _ _ fun s hs =>
      (hstated hm howner s hs).keeps (keeps_perform p _)
  | define name range => exact (hbefore.resolve name).addDefinition _ _ range
  | refer name range => exact (hbefore.resolve name).addReference _ _ range
  | note => exact hbefore
  | rescope => exact hbefore

theorem told_play (hwf : p.registry.WellFormed) (h : p.registry.Told law) {ms : List Move}
    (hms : ∀ m ∈ ms, m.States law ∧ ∀ scope ∈ m.owner?, p.Knows scope) :
    (p.play ms).registry.Told law := by
  induction ms generalizing p with
  | nil => exact h
  | cons m ms ih =>
    obtain ⟨hm, howner⟩ := hms m List.mem_cons_self
    refine ih (wellFormed_perform hwf m) (told_perform hwf h hm howner) fun m' hm' => ?_
    obtain ⟨hstates, hknown⟩ := hms m' (List.mem_cons_of_mem _ hm')
    exact ⟨hstates, fun scope hs => (hknown scope hs).play [m]⟩

/-- **One occurrence**, whose owner has been mentioned. -/
theorem told_visit (hwf : p.registry.WellFormed) (h : p.registry.Told law) {o : Occurrence}
    (howner : ∀ scope ∈ o.owner?, p.Knows scope)
    (hlaw : ∀ {name kind owner}, o.Says name kind owner → law name kind owner) :
    (reached (p.visit o)).registry.Told law := by
  rw [reached_visit]
  refine told_play hwf h fun m hm => ⟨?_, fun scope hs => ?_⟩
  · have hsaid := states_visitMoves o m hm
    cases m with
    | state name kind owner => exact hlaw hsaid
    | suggest name kind owner => exact hlaw hsaid
    | _ => trivial
  · exact howner scope (owner?_of_mem_visitMoves hm hs)

/-- **A walk**, stopped or not, over occurrences whose owners come first. -/
theorem told_walk (hwf : p.registry.WellFormed) (h : p.registry.Told law) {known : List String}
    (hknown : ∀ scope ∈ known, p.Knows scope) {os : List Occurrence}
    (howners : OwnersFirst known os)
    (hlaw : ∀ o ∈ os, ∀ {name kind owner}, o.Says name kind owner → law name kind owner) :
    (reached (p.walk os)).registry.Told law := by
  -- by induction on the occurrences; whatever is an owner later is known by then
  induction os generalizing p known with
  | nil => exact h
  | cons o os ih =>
    have hvisited := told_visit hwf h (fun scope hs => hknown scope (howners.1 scope hs))
      (hlaw o List.mem_cons_self)
    have hreached := reached_visit p o
    rw [walk_cons]
    cases hvisit : p.visit o with
    | error stopped =>
      rw [hvisit] at hvisited
      exact hvisited
    | ok q =>
      rw [hvisit] at hvisited hreached
      have hq : q = p.play (p.visitMoves o) := hreached
      refine ih (hq ▸ wellFormed_play hwf _) hvisited (fun scope hs => ?_) howners.2
        fun o' ho' => hlaw o' (List.mem_cons_of_mem _ ho')
      rcases List.mem_append.mp hs with hs | hs
      · exact knows_of_visit_eq_ok hvisit hs
      · exact hq ▸ (hknown scope hs).play _

end Pass

/-! ### Histories of analyses -/

namespace Registry

variable {r : Registry}

theorem Told.analyze (hwf : r.WellFormed) (h : r.Told law) (source : String) (d : DocumentId)
    (text : String) {tree : Tree}
    (hlaw : ∀ o ∈ tree.occurrences, ∀ {name kind owner}, o.Says name kind owner →
      law name kind owner) :
    (GrammarIndex.analyze source r d text tree).2.Told law := by
  have hwalk : (Pass.reached ((analysisStart source r d text).walk tree.occurrences)).registry.Told
      law :=
    Pass.told_walk (hwf.forget d) (h.forget d) (fun _ hs => absurd hs List.not_mem_nil)
      tree.ownersFirst_occurrences hlaw
  rw [analyze_eq]
  cases hp : (analysisStart source r d text).walk tree.occurrences with
  | ok p =>
    rw [hp] at hwalk
    exact hwalk
  | error stopped =>
    rw [hp] at hwalk
    exact hwalk.forget _

/-- The event is about a whole document, which is analysed or forgotten. -/
def Event.isWhole : Event → Bool
  | .operation (.forget _) => true
  | .operation _ => false
  | .analysis _ _ _ _ => true

/-- The tree that is analysed. -/
def Event.tree? : Event → Option Tree
  | .analysis _ _ _ (.ok tree) => some tree
  | _ => none

theorem Told.run (hwf : r.WellFormed) (h : r.Told law) {event : Event}
    (hwhole : event.isWhole = true)
    (hlaw : ∀ tree ∈ event.tree?, ∀ o ∈ tree.occurrences, ∀ {name kind owner},
      o.Says name kind owner → law name kind owner) : (event.run r).Told law := by
  cases event with
  | operation o =>
    cases o with
    | forget d => exact h.forget d
    | _ => exact absurd hwhole (by simp [Event.isWhole])
  | analysis source d text parsed =>
    cases parsed with
    | ok tree => exact h.analyze hwf source d text (hlaw tree rfl)
    | error e => exact h.forget d

/-- **A law that all occurrences keep to holds after every history of analyses.** -/
theorem told_after {history : List Event} (hwhole : ∀ event ∈ history, event.isWhole = true)
    (hlaw : ∀ event ∈ history, ∀ tree ∈ event.tree?, ∀ o ∈ tree.occurrences,
      ∀ {name kind owner}, o.Says name kind owner → law name kind owner) :
    (after history).Told law := by
  induction history using List.reverseRecOn with
  | nil => exact .empty
  | append_singleton before event ih =>
    have hbefore := ih (fun e he => hwhole e (List.mem_append_left _ he))
      fun e he => hlaw e (List.mem_append_left _ he)
    have hlast : event ∈ before ++ [event] :=
      List.mem_append_right _ (List.mem_singleton_self event)
    rw [after, List.foldl_append]
    exact hbefore.run (wellFormed_after before) (hwhole event hlast) (hlaw event hlast)

end Registry

end GrammarIndex
