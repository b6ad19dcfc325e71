import GrammarIndex.Proofs.Analysis.Evolution
import GrammarIndex.Proofs.Grammar.Members

/-!
# Rounds of analyses

Several documents are analysed into one registry, in some order and some of them more
than once.  An analysis in between may miss what a later document declares.  But a name
inside a grammar is spoken of by the document of that grammar alone, so that once every
document has had its turn, each such name has the kind that its own document gives it,
whatever else has happened.  And names inside grammars are all that an analysis looks
up.

## Main definitions

* `ParsedDocument`, `afterAnalyses` — a document with its tree, and the registry after a
  run of analyses.
* `ParsedDocument.Owns`, `ParsedDocument.kindOf?` — the names that lie in a grammar of the
  document, and the kinds that it gives them.
* `Apart` — documents that declare different grammars, all names without dots.
* `SettledBy` — what is known of a registry after a run.

## Main results

* `SettledBy.analyze`, `Apart.settledBy_afterAnalyses` — one more analysis, and a run.
* `SettledBy.kindNamed?_forget_eq` — after two rounds, names have the same kinds.
* `gives_of_rounds` — **once every document has been seen, the order does not matter.**
-/

namespace GrammarIndex

/-! ### Documents -/

/-- A document with the tree of its text. -/
structure ParsedDocument where
  /-- The document. -/
  id : DocumentId
  /-- Its text. -/
  text : String
  /-- The tree of the text. -/
  tree : Tree

namespace ParsedDocument

/-- The analysis of the document. -/
def analyze (x : ParsedDocument) (source : String) (r : Registry) :
    Except Fault Analysis × Registry :=
  GrammarIndex.analyze source r x.id x.text x.tree

/-- The name lies in a grammar that the document declares. -/
def Owns (x : ParsedDocument) (n : String) : Prop :=
  ∃ g ∈ x.tree.grammars, ∃ name, n = qualify g.name.text name

/-- The kind that the document gives a name of which nobody else speaks. -/
def kindOf? (x : ParsedDocument) (n : String) : Option Kind :=
  (x.tree.occurrences.foldl (Occurrence.effect n) (.ofOthers none)).kind

theorem Owns.not_dotless {x : ParsedDocument} {n : String} (h : x.Owns n) : ¬ Dotless n := by
  obtain ⟨g, -, name, rfl⟩ := h
  exact not_dotless_qualify g.name.text name

end ParsedDocument

/-- The registry after the analyses of these documents, one after the other, that began
with the empty one. -/
def afterAnalyses (source : String) (run : List ParsedDocument) : Registry :=
  run.foldl (fun r x => (x.analyze source r).2) .empty

/-! ### One analysis -/

namespace Registry

variable {r : Registry} {source : String} {d : DocumentId} {text : String} {tree : Tree}
  {a : Analysis}

/-- How names stand with a document that has just been analysed. -/
theorem WellFormed.standing_analyze (h : r.WellFormed)
    (hok : (GrammarIndex.analyze source r d text tree).1 = .ok a) (n : String) :
    (GrammarIndex.analyze source r d text tree).2.standing d n =
      tree.occurrences.foldl (Occurrence.effect n) (.ofOthers ((r.forget d).kindNamed? n)) := by
  rw [analyze_eq] at hok ⊢
  cases hp : (analysisStart source r d text).walk tree.occurrences with
  | error stopped =>
    rw [hp] at hok
    exact absurd hok (by simp)
  | ok p =>
    obtain ⟨v, hv, hshows⟩ := (Pass.Shows.start h source d text).exists_walk hp
    have hdocument : p.document = d := by
      rw [Pass.eq_play_of_walk hp, Pass.document_play]
      rfl
    have hend : p.registry.standing p.document n = v.standing n := hshows.standing n
    rw [hdocument, View.standing_walk hv] at hend
    exact hend

/-- An analysis changes nothing about what other documents have stated. -/
theorem WellFormed.own_standing_analyze (h : r.WellFormed) {d' : DocumentId} (hd : d ≠ d')
    (n : String) :
    ((GrammarIndex.analyze source r d text tree).2.standing d' n).own =
      (r.standing d' n).own := by
  have hforgotten : ∀ {r' : Registry}, r'.WellFormed →
      ((r'.forget d).standing d' n).own = (r'.standing d' n).own := by
    intro r' hr'
    rw [hr'.own_standing_forget]
    simp [hd]
  -- the document forgotten, only names have been mentioned
  rw [← hforgotten (h.analyze source d text tree), h.forget_analyze,
    (h.forget d).standing_mention, hforgotten h]

end Registry

/-! ### Documents apart -/

/-- Documents that declare different grammars, and know no grammar by a name with a dot. -/
structure Apart (docs : List ParsedDocument) : Prop where
  /-- Every document has an identity of its own. -/
  eq_of_id : ∀ x ∈ docs, ∀ y ∈ docs, x.id = y.id → x = y
  /-- No name of a grammar has a dot. -/
  dotless_name : ∀ x ∈ docs, ∀ g ∈ x.tree.grammars, Dotless g.name.text
  /-- No name of a parent has a dot. -/
  dotless_parent : ∀ x ∈ docs, ∀ g ∈ x.tree.grammars, ∀ p ∈ g.parents, Dotless p.text
  /-- At most one of them declares a grammar of a name. -/
  eq_of_name : ∀ x ∈ docs, ∀ y ∈ docs, ∀ g ∈ x.tree.grammars, ∀ g' ∈ y.tree.grammars,
    g.name.text = g'.name.text → x = y

namespace Apart

variable {docs : List ParsedDocument} {x y : ParsedDocument} {n : String}

/-- A name has one owner. -/
theorem eq_of_owns (h : Apart docs) (hx : x ∈ docs) (hy : y ∈ docs) (hxn : x.Owns n)
    (hyn : y.Owns n) : x = y := by
  obtain ⟨g, hg, name, rfl⟩ := hxn
  obtain ⟨g', hg', name', heq⟩ := hyn
  have hnames := (qualify_inj (h.dotless_name x hx g hg) (h.dotless_name y hy g' hg')).mp heq
  exact h.eq_of_name x hx y hy g hg g' hg' hnames.1

/-- A document says nothing of the names in grammars of others. -/
theorem foldl_effect (h : Apart docs) (hx : x ∈ docs) (hn : ¬ Dotless n) (hxn : ¬ x.Owns n)
    (s : Standing) : x.tree.occurrences.foldl (Occurrence.effect n) s = s := by
  have hkeeps : ∀ o ∈ x.tree.occurrences, ∀ s, Occurrence.effect n s o = s := by
    intro o ho s
    obtain ⟨g, hg, hmember⟩ := Tree.exists_memberOf ho
    unfold Occurrence.effect
    cases hname : o.name? with
    | none => rfl
    | some name =>
      -- the name of a grammar or of a parent is the text of its token
      have hplain : o.role.isLiteral = false → name = o.token.text := by
        intro hliteral
        rw [Occurrence.name?_of_not_isLiteral hliteral] at hname
        exact (Option.some.inj hname).symm
      refine Role.effect_eq_self ?_ ?_ ?_ s
      · rintro hrole rfl
        refine hn ?_
        rw [hplain (by rw [hrole]; rfl), hmember.token_eq hrole]
        exact h.dotless_name x hx g hg
      · rintro hrole rfl
        refine hn ?_
        rw [hplain (by rw [hrole]; rfl)]
        exact h.dotless_parent x hx g hg o.token (hmember.mem_parents hrole)
      · intro a hqualified
        refine hxn ⟨g, hg, a, ?_⟩
        rw [← hqualified, hmember.grammar_eq]
  -- by induction on the occurrences, each of which leaves the standing as it is
  generalize x.tree.occurrences = os at hkeeps
  induction os generalizing s with
  | nil => rfl
  | cons o os ih =>
    rw [List.foldl_cons, hkeeps o List.mem_cons_self]
    exact ih s fun o' ho' => hkeeps o' (List.mem_cons_of_mem _ ho')

end Apart

/-! ### Runs -/

/-- What is known of a registry into which the documents of `seen` have been analysed,
in some order, among the documents of `docs`. -/
structure SettledBy (docs seen : List ParsedDocument) (r : Registry) : Prop where
  /-- The documents are of the set. -/
  subset : seen ⊆ docs
  /-- The registry is well formed. -/
  wellFormed : r.WellFormed
  /-- Whoever has stated a kind for a qualified name owns it, and has been seen. -/
  owner : ∀ {d n}, ¬ Dotless n → (r.standing d n).own = true → ∃ x ∈ seen, x.id = d ∧ x.Owns n
  /-- A document that has been seen decides the kinds of its names. -/
  kind_eq : ∀ {x n}, x ∈ seen → x.Owns n → r.kindNamed? n = x.kindOf? n

namespace SettledBy

variable {docs seen : List ParsedDocument} {r : Registry} {x y : ParsedDocument} {n : String}

theorem empty : SettledBy docs [] .empty where
  subset := List.nil_subset docs
  wellFormed := .empty
  owner := fun _ hown => absurd hown (by simp [Registry.standing, Registry.symbolNamed?,
    Registry.lookup?, Registry.empty, Standing.ofOthers])
  kind_eq := fun hx => absurd hx List.not_mem_nil

/-- A document that does not own a name has stated nothing about it. -/
theorem not_own (h : SettledBy docs seen r) (hdocs : Apart docs) (hx : x ∈ docs)
    (hn : ¬ Dotless n) (hxn : ¬ x.Owns n) : (r.standing x.id n).own = false := by
  refine Bool.eq_false_iff.mpr fun hown => ?_
  obtain ⟨y, hy, hid, hyn⟩ := h.owner hn hown
  rw [hdocs.eq_of_id y (h.subset hy) x hx hid] at hyn
  exact hxn hyn

/-- Forgetting a document leaves the names of others alone. -/
theorem kindNamed?_forget (h : SettledBy docs seen r) (hdocs : Apart docs) (hx : x ∈ docs)
    (hn : ¬ Dotless n) (hxn : ¬ x.Owns n) : (r.forget x.id).kindNamed? n = r.kindNamed? n :=
  h.wellFormed.kindNamed?_forget_of_not_own (h.not_own hdocs hx hn hxn)

/-- Without the one document that may own it, a name has no kind. -/
theorem kindNamed?_forget_eq_none (h : SettledBy docs seen r) (hn : ¬ Dotless n)
    (howner : ∀ y ∈ seen, y.Owns n → y = x) : (r.forget x.id).kindNamed? n = none := by
  refine Registry.kindNamed?_eq_none_of_not_own fun d => ?_
  rw [h.wellFormed.own_standing_forget]
  by_cases hd : x.id = d
  · simp [hd]
  · have hown : (r.standing d n).own = false := by
      refine Bool.eq_false_iff.mpr fun hown => ?_
      obtain ⟨y, hy, hid, hyn⟩ := h.owner hn hown
      rw [howner y hy hyn] at hid
      exact hd hid
    simp [hown]

/-- **One more analysis** settles the names of its document, and leaves the others. -/
theorem analyze (h : SettledBy docs seen r) (hdocs : Apart docs) (hx : x ∈ docs)
    {source : String} {a : Analysis} (hok : (x.analyze source r).1 = .ok a) :
    SettledBy docs (seen ++ [x]) (x.analyze source r).2 := by
  -- the last analysis is judged by what its occurrences make of the standing
  have hstanding := h.wellFormed.standing_analyze hok
  have hwf := h.wellFormed.analyze source x.id x.text x.tree
  have hsubset : seen ++ [x] ⊆ docs :=
    List.append_subset.mpr ⟨h.subset, List.cons_subset.mpr ⟨hx, List.nil_subset docs⟩⟩
  -- what others own stays as it was
  have hothers : ∀ {n}, ¬ Dotless n → ¬ x.Owns n →
      (x.analyze source r).2.standing x.id n = .ofOthers (r.kindNamed? n) := by
    intro n hn hxn
    rw [ParsedDocument.analyze, hstanding, hdocs.foldl_effect hx hn hxn,
      h.kindNamed?_forget hdocs hx hn hxn]
  refine ⟨hsubset, hwf, ?_, ?_⟩
  · -- what a document has stated is its own, in the last analysis and before
    intro d n hn hown
    by_cases hd : x.id = d
    · subst hd
      by_cases hxn : x.Owns n
      · exact ⟨x, List.mem_append_right _ (List.mem_singleton_self x), rfl, hxn⟩
      · rw [hothers hn hxn] at hown
        exact absurd hown (by simp [Standing.ofOthers])
    · rw [ParsedDocument.analyze, h.wellFormed.own_standing_analyze hd] at hown
      obtain ⟨y, hy, hid, hyn⟩ := h.owner hn hown
      exact ⟨y, List.mem_append_left _ hy, hid, hyn⟩
  · -- a name has the kind that its owner gives it, be this the last document or another one
    intro y n hy hyn
    have hn := hyn.not_dotless
    rw [← Registry.kind_standing _ x.id]
    by_cases hxn : x.Owns n
    · have hnone : (r.forget x.id).kindNamed? n = none :=
        h.kindNamed?_forget_eq_none hn fun z hz hzn => hdocs.eq_of_owns (h.subset hz) hx hzn hxn
      rw [← hdocs.eq_of_owns hx (hsubset hy) hxn hyn, ParsedDocument.analyze, hstanding, hnone]
      rfl
    · have hseen : y ∈ seen := by
        rcases List.mem_append.mp hy with hy | hy
        · exact hy
        · rw [List.mem_singleton.mp hy] at hyn
          exact absurd hyn hxn
      rw [hothers hn hxn]
      exact h.kind_eq hseen hyn

/-- After two rounds, names have the same kinds once a document of the set is forgotten. -/
theorem kindNamed?_forget_eq {seen' : List ParsedDocument} {r' : Registry}
    (h : SettledBy docs seen r) (h' : SettledBy docs seen' r') (hdocs : Apart docs)
    (hall : docs ⊆ seen) (hall' : docs ⊆ seen') (hx : x ∈ docs) (hn : ¬ Dotless n) :
    (r.forget x.id).kindNamed? n = (r'.forget x.id).kindNamed? n := by
  by_cases howner : ∃ y ∈ docs, y ≠ x ∧ y.Owns n
  · obtain ⟨y, hy, hne, hyn⟩ := howner
    have hxn : ¬ x.Owns n := fun hxn => hne (hdocs.eq_of_owns hy hx hyn hxn)
    rw [h.kindNamed?_forget hdocs hx hn hxn, h'.kindNamed?_forget hdocs hx hn hxn,
      h.kind_eq (hall hy) hyn, h'.kind_eq (hall' hy) hyn]
  · have hsole : ∀ y ∈ docs, y.Owns n → y = x := by
      intro y hy hyn
      by_contra hne
      exact howner ⟨y, hy, hne, hyn⟩
    rw [h.kindNamed?_forget_eq_none hn fun y hy => hsole y (h.subset hy),
      h'.kindNamed?_forget_eq_none hn fun y hy => hsole y (h'.subset hy)]

end SettledBy

/-- An analysis that succeeds once succeeds in every registry. -/
theorem Registry.WellFormed.exists_analyze_eq_ok {r r₀ : Registry} (h : r.WellFormed)
    (h₀ : r₀.WellFormed) {source : String} {x : ParsedDocument} {a : Analysis}
    (hok : (x.analyze source r₀).1 = .ok a) :
    ∃ f a', findingOf source (r.forget x.id).kindNamed? x.id x.text x.tree = .ok f ∧
      (x.analyze source r).1 = .ok a' := by
  -- whether an analysis succeeds hangs on its text and tree, and not on the registry
  have hgives₀ := h₀.gives_analyze source x.id x.text x.tree
  have hgives := h.gives_analyze source x.id x.text x.tree
  unfold Registry.Gives at hgives₀ hgives
  unfold ParsedDocument.analyze at hok ⊢
  rw [hok] at hgives₀
  cases hf₀ : findingOf source (r₀.forget x.id).kindNamed? x.id x.text x.tree with
  | error fault =>
    rw [hf₀] at hgives₀
    cases hgives₀
  | ok f₀ =>
    obtain ⟨f, hf⟩ := exists_findingOf_eq_ok hf₀ (r.forget x.id).kindNamed?
    rw [hf] at hgives ⊢
    generalize (GrammarIndex.analyze source r x.id x.text x.tree).1 = outcome at hgives ⊢
    cases hgives
    exact ⟨f, _, rfl, rfl⟩

/-- **A run of analyses**, each of which can succeed, settles the names of all documents
in it. -/
theorem Apart.settledBy_afterAnalyses {docs : List ParsedDocument} (hdocs : Apart docs)
    {source : String} (hok : ∀ x ∈ docs, ∃ a, (x.analyze source .empty).1 = .ok a)
    {run : List ParsedDocument} (hrun : run ⊆ docs) :
    SettledBy docs run (afterAnalyses source run) := by
  have hfold : ∀ {seen : List ParsedDocument} {r : Registry}, SettledBy docs seen r →
      SettledBy docs (seen ++ run) (run.foldl (fun r x => (x.analyze source r).2) r) := by
    induction run with
    | nil =>
      intro seen r h
      rwa [List.append_nil]
    | cons x run ih =>
      intro seen r h
      have hx : x ∈ docs := hrun List.mem_cons_self
      obtain ⟨a₀, ha₀⟩ := hok x hx
      obtain ⟨-, a, -, ha⟩ := h.wellFormed.exists_analyze_eq_ok .empty ha₀
      have hrest := ih (fun _ hy => hrun (List.mem_cons_of_mem x hy)) (h.analyze hdocs hx ha)
      rwa [List.append_assoc] at hrest
  exact hfold .empty

/-- **Once every document has been seen, the order of analysis does not matter.**  Take
documents that declare different grammars under names without dots, and each of which can
be analysed.  After two runs over them, both of which analyse every document at least once,
one more analysis of a document finds the same: the same diagnostics, and definitions and
references that agree entry by entry in range and qualified name. -/
theorem gives_of_rounds {docs : List ParsedDocument} (hdocs : Apart docs) {source : String}
    (hok : ∀ x ∈ docs, ∃ a, (x.analyze source .empty).1 = .ok a)
    {run₁ run₂ : List ParsedDocument} (hrun₁ : ∀ x, x ∈ run₁ ↔ x ∈ docs)
    (hrun₂ : ∀ x, x ∈ run₂ ↔ x ∈ docs) {d : ParsedDocument} (hd : d ∈ docs) :
    ∃ f : Finding,
      Registry.Gives (d.analyze source (afterAnalyses source run₁)) (.ok f) ∧
        Registry.Gives (d.analyze source (afterAnalyses source run₂)) (.ok f) := by
  -- each run settles every document
  have h₁ := hdocs.settledBy_afterAnalyses hok fun x hx => (hrun₁ x).mp hx
  have h₂ := hdocs.settledBy_afterAnalyses hok fun x hx => (hrun₂ x).mp hx
  -- other documents give names the same kinds after both runs
  have hkinds : ∀ scope name,
      ((afterAnalyses source run₁).forget d.id).kindNamed? (qualify scope name) =
        ((afterAnalyses source run₂).forget d.id).kindNamed? (qualify scope name) :=
    fun scope name => h₁.kindNamed?_forget_eq h₂ hdocs (fun x hx => (hrun₁ x).mpr hx)
      (fun x hx => (hrun₂ x).mpr hx) hd (not_dotless_qualify scope name)
  obtain ⟨a, ha⟩ := hok d hd
  obtain ⟨f, -, hf, -⟩ := h₁.wellFormed.exists_analyze_eq_ok .empty ha
  have hgives₁ := h₁.wellFormed.gives_analyze source d.id d.text d.tree
  have hgives₂ := h₂.wellFormed.gives_analyze source d.id d.text d.tree
  rw [← findingOf_congr hkinds, hf] at hgives₂
  rw [hf] at hgives₁
  exact ⟨f, hgives₁, hgives₂⟩

/-- Two grammars that inherit from each other, each with a terminal that mentions one of the
other. -/
def mutualParents : List ParsedDocument :=
  [⟨⟨0⟩, "A:B{T->X U->T}", ⟨[⟨⟨"A", ⟨0, 1⟩⟩, [⟨"B", ⟨2, 3⟩⟩], [],
      [.terminal ⟨"T", ⟨4, 5⟩⟩ (.reference ⟨"X", ⟨7, 8⟩⟩),
        .terminal ⟨"U", ⟨9, 10⟩⟩ (.reference ⟨"T", ⟨12, 13⟩⟩)], []⟩]⟩⟩,
    ⟨⟨1⟩, "B:A{X->U}", ⟨[⟨⟨"B", ⟨0, 1⟩⟩, [⟨"A", ⟨2, 3⟩⟩], [],
      [.terminal ⟨"X", ⟨4, 5⟩⟩ (.reference ⟨"U", ⟨7, 8⟩⟩)], []⟩]⟩⟩]

/-- The shortest round in one order, and a longer one in the other. -/
theorem gives_of_rounds_mutualParents :
    let x := mutualParents[0]
    let y := mutualParents[1]
    Apart mutualParents ∧ (∀ z ∈ mutualParents, ∃ a, (z.analyze "hime" .empty).1 = .ok a) ∧
      (∀ z, z ∈ [x, y] ↔ z ∈ mutualParents) ∧ (∀ z, z ∈ [y, x, x, y] ↔ z ∈ mutualParents) ∧
      x ∈ mutualParents ∧
        ∃ f : Finding,
          Registry.Gives (x.analyze "hime" (afterAnalyses "hime" [x, y])) (.ok f) ∧
            Registry.Gives (x.analyze "hime" (afterAnalyses "hime" [y, x, x, y])) (.ok f) := by
  intro x y
  have hdocs : mutualParents = [x, y] := rfl
  have hids : x.id ≠ y.id := by decide
  have hapart : Apart mutualParents := by
    rw [hdocs]
    refine ⟨?_, ?_, ?_, ?_⟩
    · simp [hids, hids.symm]
    · simp [x, y, mutualParents, Dotless]
    · simp [x, y, mutualParents, Dotless]
    · simp [x, y, mutualParents]
  have hok : ∀ z ∈ mutualParents, ∃ a, (z.analyze "hime" .empty).1 = .ok a := by
    have hsome : ∀ z ∈ mutualParents, (z.analyze "hime" .empty).1.toOption.isSome = true := by
      decide +kernel
    intro z hz
    have hz' := hsome z hz
    cases houtcome : (z.analyze "hime" .empty).1 with
    | ok a => exact ⟨a, rfl⟩
    | error fault => simp [houtcome, Except.toOption] at hz'
  have hrun₁ : ∀ z, z ∈ [x, y] ↔ z ∈ mutualParents := fun z => Iff.rfl
  have hrun₂ : ∀ z, z ∈ [y, x, x, y] ↔ z ∈ mutualParents := by
    intro z
    rw [hdocs]
    simp only [List.mem_cons, List.not_mem_nil, or_false]
    tauto
  have hx : x ∈ mutualParents := List.mem_cons_self
  exact ⟨hapart, hok, hrun₁, hrun₂, hx, gives_of_rounds hapart hok hrun₁ hrun₂ hx⟩

end GrammarIndex
