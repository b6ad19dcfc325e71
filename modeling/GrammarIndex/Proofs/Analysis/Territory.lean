import GrammarIndex.Proofs.Analysis.Hearing
import GrammarIndex.Proofs.Analysis.Renaming
import GrammarIndex.Proofs.Analysis.Rounds

/-!
# What a document speaks of

The moves of an analysis mention the grammars of the document and the names in them, and
what they say of those may be anything.  Beyond that they mention the parents and names in
the parents, but of these they say little: that a parent is a grammar, unless it is something
else already, and that a symbol is referenced at a range.

## Main definitions

* `ParsedDocument.Holds`, `ParsedDocument.Sees` — the grammars of a document with the names
  in them, and its parents with the names in those.
* `Move.isMild`, `ParsedDocument.Utters` — a move that says little, and a move that a document
  can make.

## Main results

* `analysisMoves_congr` — **the moves of an analysis depend on the kinds of names in parents
  alone.**
* `ParsedDocument.utters_of_mem_analysisMoves` — **an analysis is mild about all names that
  the document does not hold.**
-/

namespace GrammarIndex

/-! ### The moves depend on the kinds of names in parents -/

section

variable {scopes : String → Prop} {p p' q : Pass} {v w : View} {o : Occurrence}

/-- Where a pass goes on, so does its view, and so does a view that agrees with it. -/
theorem Pass.Shows.exists_of_visit (hp : p.Shows v) (h : v.AgreesOn scopes w)
    (hparent : o.role = .use .parent → scopes o.token.text) (hq : p.visit o = .ok q) :
    ∃ v' w', w.visit o = .ok w' ∧ q.Shows v' ∧ v'.AgreesOn scopes w' := by
  have hshows := hp.visit o
  rw [hq] at hshows
  obtain ⟨v', hv', hv⟩ := hshows.exists_eq_ok
  have hagrees := h.visit hparent
  rw [hv'] at hagrees
  obtain ⟨w', hw', hw⟩ := hagrees.exists_eq_ok
  exact ⟨v', w', hw', hv, hw⟩

/-- A pass that is shown by a view that goes on goes on as well. -/
theorem Pass.Shows.exists_visit_eq_ok (hp : p.Shows v) {v' : View} (hv : v.visit o = .ok v') :
    ∃ q, p.visit o = .ok q ∧ q.Shows v' := by
  have hshows := hp.visit o
  rw [hv] at hshows
  exact hshows.exists_ok_eq

theorem Pass.visitMoves_congr (hp : p.Shows v) (hp' : p'.Shows w) (h : v.AgreesOn scopes w)
    (o : Occurrence) : p.visitMoves o = p'.visitMoves o := by
  have hmeaning : ∀ use name, p.meaning o.grammar use name = p'.meaning o.grammar use name := by
    intro use name
    rw [hp.meaning, hp'.meaning, h.meaning]
  have hrecording : ∀ name range,
      (p.play (announcement o.grammar o.role name)).recording o.grammar o.role name range =
        (p'.play (announcement o.grammar o.role name)).recording o.grammar o.role name range := by
    intro name range
    cases o.role with
    | use use =>
      -- what is announced has a meaning of its own, and what is not finds the pass as it was
      cases use with
      | parent | action | virtual => rfl
      | _ => exact congrArg (fun m : Meaning => [m.move name range]) (hmeaning _ name)
    | _ => rfl
  unfold visitMoves
  cases o.name? with
  | none => rfl
  | some name =>
    simp only [hp.rangeOf, hp'.rangeOf, h.lines, h.document]
    cases w.lines.range? o.token.span with
    | none => rfl
    | some range => simp only [hrecording]

theorem Pass.walkMoves_congr (hp : p.Shows v) (hp' : p'.Shows w) (h : v.AgreesOn scopes w)
    {os : List Occurrence} (hos : ∀ o ∈ os, o.role = .use .parent → scopes o.token.text) :
    p.walkMoves os = p'.walkMoves os := by
  -- by induction on the occurrences; both passes are seen through views that agree
  induction os generalizing p p' v w with
  | nil => rfl
  | cons o os ih =>
    have hparent := hos o List.mem_cons_self
    rw [walkMoves, walkMoves, visitMoves_congr hp hp' h]
    cases hvisit : p.visit o with
    | ok q =>
      obtain ⟨v', w', hw', hq, h'⟩ := hp.exists_of_visit h hparent hvisit
      obtain ⟨q', hvisit', hq'⟩ := hp'.exists_visit_eq_ok hw'
      simp only [hvisit']
      rw [ih hq hq' h' fun o' ho' => hos o' (List.mem_cons_of_mem o ho')]
    | error stopped =>
      -- a pass that goes on where the other one stops would be seen through a view that does
      have hstopped : ∀ q', p'.visit o ≠ .ok q' := by
        intro q' hvisit'
        have hshows := hp.visit o
        have hagrees := h.visit hparent
        have hshows' := hp'.visit o
        rw [hvisit] at hshows
        rw [hvisit'] at hshows'
        generalize v.visit o = outcome, w.visit o = outcome' at hshows hagrees hshows'
        cases hshows
        cases hagrees
        cases hshows'
      cases hvisit' : p'.visit o with
      | ok q' => exact absurd hvisit' (hstopped q')
      | error stopped' => rfl

end

/-- **The moves of an analysis depend on the kinds of names in parents alone.** -/
theorem analysisMoves_congr {r r' : Registry} (hr : r.WellFormed) (hr' : r'.WellFormed)
    {d : DocumentId} {tree : Tree}
    (h : ∀ {parent : String}, tree.Inherits parent → ∀ name,
      (r.forget d).kindNamed? (qualify parent name) =
        (r'.forget d).kindNamed? (qualify parent name))
    (source text : String) :
    analysisMoves source r d text tree = analysisMoves source r' d text tree :=
  Pass.walkMoves_congr (Pass.Shows.start hr source d text) (Pass.Shows.start hr' source d text)
    (View.agreesOn_start h source d text) fun _ ho => Tree.inherits_of_mem_occurrences ho

/-! ### The names of a document -/

namespace ParsedDocument

/-- The name is that of a grammar of the document, or lies in one. -/
def Holds (x : ParsedDocument) (n : String) : Prop :=
  (∃ g ∈ x.tree.grammars, g.name.text = n) ∨ x.Owns n

/-- The name is that of a parent of the document, or lies in one. -/
def Sees (x : ParsedDocument) (n : String) : Prop :=
  x.tree.Inherits n ∨ ∃ parent name, x.tree.Inherits parent ∧ qualify parent name = n

end ParsedDocument

/-- The move says of a name at most that it is a grammar without an owner, unless it is
something else already, or that it is referenced. -/
def Move.isMild : Move → Bool
  | suggest _ .grammar none => true
  | refer _ _ => true
  | note _ _ _ => true
  | rescope _ => true
  | _ => false

namespace ParsedDocument

/-- A move that the document can make: it is about a name that the document holds, or it is
mild about a name that the document sees. -/
def Utters (x : ParsedDocument) (m : Move) : Prop :=
  ∀ n ∈ m.names, x.Holds n ∨ x.Sees n ∧ m.isMild = true

variable {x : ParsedDocument} {m : Move}

theorem utters_of_holds {n : String} (hnames : m.names = [n]) (h : x.Holds n) : x.Utters m := by
  intro n' hn'
  rw [hnames, List.mem_singleton] at hn'
  exact .inl (hn' ▸ h)

theorem utters_of_sees {n : String} (hnames : m.names = [n]) (h : x.Sees n)
    (hmild : m.isMild = true) : x.Utters m := by
  intro n' hn'
  rw [hnames, List.mem_singleton] at hn'
  exact .inr ⟨hn' ▸ h, hmild⟩

theorem utters_of_names_eq_nil (hnames : m.names = []) : x.Utters m := by
  intro n hn
  rw [hnames] at hn
  exact absurd hn List.not_mem_nil

end ParsedDocument

/-- A use means a parent, or a name in the grammar, or a name in an import. -/
theorem Scope.meaning_eq_symbol {scope : Scope} {kindOf : String → Option Kind}
    {grammar name q : String} {u : Use} (h : scope.meaning kindOf grammar u name = .symbol q) :
    (u = .parent ∧ q = name) ∨ (∃ a, q = qualify grammar a) ∨
      ∃ parent ∈ scope.imports, q = qualify parent name := by
  rcases exists_atHome_or_mistake scope kindOf grammar name u with ⟨home, hhome⟩ | ⟨m, hm⟩
  · rw [hhome.meaning_eq, Meaning.symbol.injEq] at h
    cases hhome with
    | parent => exact .inl ⟨rfl, h.symm⟩
    | parameter =>
      exact .inr (.inl ⟨_, h.symm.trans ((joinPath_three _ _ _).trans (qualify_qualify _ _ _))⟩)
    | lexicalImport _ _ himporter | «import» _ _ _ himporter =>
      exact .inr (.inr ⟨_, mem_imports_of_importer? himporter, h.symm⟩)
    | _ => exact .inr (.inl ⟨_, h.symm⟩)
  · rw [hm] at h
    exact absurd h (by simp)

namespace ParsedDocument

section

variable {x : ParsedDocument} {grammar name : String} {role : Role}
  (hinner : ∀ a, x.Holds (qualify grammar a)) (hparent : role = .use .parent → x.Sees name)

include hinner hparent

theorem utters_of_mem_announcement {m : Move} (hm : m ∈ announcement grammar role name) :
    x.Utters m := by
  cases role with
  | grammar =>
    rw [List.mem_singleton.mp hm]
    exact utters_of_names_eq_nil rfl
  | use use =>
    cases use with
    | parent =>
      rw [List.mem_singleton.mp hm]
      exact utters_of_sees rfl (hparent rfl) rfl
    | action | virtual =>
      rw [List.mem_singleton.mp hm]
      exact utters_of_holds rfl (hinner name)
    | _ => exact absurd hm List.not_mem_nil
  | _ => exact absurd hm List.not_mem_nil

/-- A use is recorded as a reference to what it means. -/
theorem utters_move {p : Pass} {v : View} (hp : p.Shows v)
    (himports : ∀ parent ∈ v.scope.imports, x.tree.Inherits parent) {use : Use}
    (hrole : role = .use use) (range : Range) :
    x.Utters ((p.meaning grammar use name).move name range) := by
  rw [hp.meaning]
  cases hmeaning : v.scope.meaning v.kindOf grammar use name with
  | mistake m => exact utters_of_names_eq_nil rfl
  | symbol q =>
    rcases Scope.meaning_eq_symbol hmeaning with ⟨rfl, rfl⟩ | ⟨a, rfl⟩ | ⟨parent, hp', rfl⟩
    · exact utters_of_sees rfl (hparent hrole) rfl
    · exact utters_of_holds rfl (hinner a)
    · exact utters_of_sees rfl (.inr ⟨parent, name, himports parent hp', rfl⟩) rfl

theorem utters_of_mem_recording {p : Pass} {v : View} (hp : p.Shows v)
    (himports : ∀ parent ∈ v.scope.imports, x.tree.Inherits parent)
    (hgrammar : role = .grammar → x.Holds name) {range : Range} {m : Move}
    (hm : m ∈ (p.play (announcement grammar role name)).recording grammar role name range) :
    x.Utters m := by
  -- what is defined is the grammar itself or something in it
  have hdefined : ∀ {q : String} {kind : Kind} {owner : Option String}, x.Holds q →
      ∀ m ∈ definition q kind owner range, x.Utters m := by
    intro q kind owner hq m hm
    rcases List.mem_pair.mp hm with rfl | rfl
    · exact utters_of_holds rfl hq
    · exact utters_of_holds rfl hq
  have hrescoped : ∀ {change : Scope → Scope}, ∀ m ∈ [Move.rescope change], x.Utters m := by
    intro change m hm
    rw [List.mem_singleton.mp hm]
    exact utters_of_names_eq_nil rfl
  cases role with
  | grammar => exact hdefined (hgrammar rfl) m hm
  | context | terminal | nonterminal =>
    rcases List.mem_append.mp hm with hm | hm
    · exact hdefined (hinner name) m hm
    · exact hrescoped m hm
  | parameter rule =>
    refine hdefined ?_ m hm
    rw [qualify_qualify]
    exact hinner (qualify rule name)
  | use use =>
    cases use with
    | parent =>
      rcases List.mem_cons.mp hm with rfl | hm
      · exact utters_of_sees rfl (hparent rfl) rfl
      · exact hrescoped m hm
    | action | virtual =>
      rw [List.mem_singleton.mp hm]
      exact utters_of_holds rfl (hinner name)
    -- any other use refers to what it means, which is in the grammar or in a parent
    | _ =>
      rw [List.mem_singleton.mp hm]
      exact utters_move hinner hparent hp himports rfl range

end

variable {x : ParsedDocument} {p : Pass} {v : View}

/-- What an occurrence announces and records is said by its document. -/
theorem utters_of_mem_visitMoves (hp : p.Shows v)
    (himports : ∀ parent ∈ v.scope.imports, x.tree.Inherits parent) {o : Occurrence}
    (ho : o ∈ x.tree.occurrences) {m : Move} (hm : m ∈ p.visitMoves o) : x.Utters m := by
  obtain ⟨g, hg, hmember⟩ := Tree.exists_memberOf ho
  have hinner : ∀ a, x.Holds (qualify o.grammar a) :=
    fun a => .inr ⟨g, hg, a, by rw [hmember.grammar_eq]⟩
  unfold Pass.visitMoves at hm
  cases hname : o.name? with
  | none =>
    rw [hname] at hm
    exact absurd hm List.not_mem_nil
  | some name =>
    -- the name of a grammar or of a parent is the text of its token
    have hplain : o.role.isLiteral = false → o.token.text = name := fun hliteral =>
      Option.some.inj ((Occurrence.name?_of_not_isLiteral hliteral).symm.trans hname)
    have hgrammar : o.role = .grammar → x.Holds name := fun hrole =>
      .inl ⟨g, hg, by rw [← hplain (by rw [hrole]; rfl), hmember.token_eq hrole]⟩
    have hparent : o.role = .use .parent → x.Sees name := fun hrole =>
      .inl (hplain (by rw [hrole]; rfl) ▸ Tree.inherits_of_mem_occurrences ho hrole)
    rw [hname] at hm
    simp only [hp.rangeOf] at hm
    -- a token outside the text is announced, and nothing more
    cases hrange : v.lines.range? o.token.span with
    | none =>
      rw [hrange] at hm
      exact utters_of_mem_announcement hinner hparent hm
    | some range =>
      simp only [hrange] at hm
      rcases List.mem_append.mp hm with hm | hm
      · exact utters_of_mem_announcement hinner hparent hm
      · exact utters_of_mem_recording hinner hparent hp himports hgrammar hm

theorem utters_of_mem_walkMoves (hp : p.Shows v)
    (himports : ∀ parent ∈ v.scope.imports, x.tree.Inherits parent) {os : List Occurrence}
    (hos : os ⊆ x.tree.occurrences) {m : Move} (hm : m ∈ p.walkMoves os) : x.Utters m := by
  induction os generalizing p v with
  | nil => exact absurd hm List.not_mem_nil
  | cons o os ih =>
    have ho : o ∈ x.tree.occurrences := hos List.mem_cons_self
    rw [Pass.walkMoves] at hm
    cases hvisit : p.visit o with
    | error stopped =>
      simp only [hvisit] at hm
      exact utters_of_mem_visitMoves hp himports ho hm
    | ok q =>
      simp only [hvisit] at hm
      rcases List.mem_append.mp hm with hm | hm
      · exact utters_of_mem_visitMoves hp himports ho hm
      · obtain ⟨v', w', -, hq, h'⟩ :=
          hp.exists_of_visit (.refl himports) (Tree.inherits_of_mem_occurrences ho) hvisit
        exact ih hq h'.imports (fun _ ho' => hos (List.mem_cons_of_mem o ho')) hm

/-- **An analysis is mild about all names that the document does not hold.** -/
theorem utters_of_mem_analysisMoves {r : Registry} (hr : r.WellFormed) {source : String} {m : Move}
    (hm : m ∈ analysisMoves source r x.id x.text x.tree) : x.Utters m :=
  utters_of_mem_walkMoves (Pass.Shows.start hr source x.id x.text)
    (fun _ hparent => absurd hparent List.not_mem_nil) (fun _ ho => ho) hm

end ParsedDocument

end GrammarIndex
