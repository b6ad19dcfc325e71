import GrammarIndex.Proofs.Analysis.Abandonment
import GrammarIndex.Proofs.Analysis.Orders
import GrammarIndex.Proofs.Analysis.Parents
import GrammarIndex.Proofs.Registry.Slice

/-!
# Independent documents

Two documents that hold none of each other's grammars may be analysed in either order.  They
may well have a parent in common, and then both speak of the parent and of names in it, but
all that they say of those is that the parent is a grammar, and where they mention them.
What the order leaves behind is the order of the two documents in such a symbol, and the
handles of new symbols.

A parent that was stated by its handle before there was a symbol for the handle is the one
exception: which symbol the handle comes to belong to is a matter of the order.

## Main definitions

* `Independent` — documents that hold none of each other's grammars.
* `Symbol.SameButOrder`, `Registry.SameButOrder` — symbols, and registries, that tell the same
  but for handles and for the order of two documents.
* `ParentsAlike` — parents of one name, or one handle that nobody had.

## Main results

* `Independent.kindNamed?_analyze` — neither document changes the kinds that the other looks
  up.
* `Independent.changedBy_analyze_analyze` — every symbol hears first one document and then the
  other.
* `analyze_comm` — **independent documents may be analysed in either order.**
* `analyze_not_comm_parentForeseen` — a parent that was not there depends on the order.
-/

namespace GrammarIndex

/-! ### Registries that tell the same -/

/-- The parents have the same name where handles have these names, or both are one handle that
is loose. -/
def ParentsAlike (loose : SymbolId → Prop) (nameOf nameOf' : SymbolId → Option String)
    (parent parent' : Option SymbolId) : Prop :=
  parent.bind nameOf = parent'.bind nameOf' ∨ ∃ i, loose i ∧ parent = some i ∧ parent' = some i

/-- The symbols tell the same, but for related parents and for the order of two documents. -/
structure Symbol.SameButOrder (d e : DocumentId)
    (related : Option SymbolId → Option SymbolId → Prop) (s t : Symbol) : Prop where
  /-- The kind is the same. -/
  kind? : s.kind? = t.kind?
  /-- The parents are related. -/
  parent? : related s.parent? t.parent?
  /-- Every document defines them at the same ranges, in the same order. -/
  definitionsIn : ∀ document, s.definitionsIn document = t.definitionsIn document
  /-- Every document references them at the same ranges, in the same order. -/
  referencesIn : ∀ document, s.referencesIn document = t.referencesIn document
  /-- Once one of the two documents is forgotten, the symbols say the same in the same order. -/
  forget : ∀ document ∈ [d, e], (s.forget document).Alike related (t.forget document)

namespace Registry

/-- The name of the symbol of a handle. -/
def nameOf? (r : Registry) (i : SymbolId) : Option String := (r.symbol? i).map (·.qualifiedName)

theorem ChangedBy.nameOf? {r r' : Registry} {change : Symbol → Symbol}
    (h : r.ChangedBy r' change) (hname : ∀ s, (change s).qualifiedName = s.qualifiedName) :
    r'.nameOf? = r.nameOf? := by
  funext i
  rw [Registry.nameOf?, h.symbol?, Option.map_map, Registry.nameOf?]
  exact congrArg (Option.map · (r.symbol? i)) (funext hname)

/-- The registries have the same names, and tell the same of each, but for handles and for the
order of two documents.  Parents have the same names, unless they were loose. -/
structure SameButOrder (d e : DocumentId) (loose : String → SymbolId → Prop) (r r' : Registry) :
    Prop where
  /-- The names are the same. -/
  isSome_lookup? : ∀ n, (r.lookup? n).isSome = (r'.lookup? n).isSome
  /-- Of each the same is told. -/
  symbolNamed? : ∀ {n : String} {s t : Symbol}, r.symbolNamed? n = some s →
    r'.symbolNamed? n = some t → s.SameButOrder d e (ParentsAlike (loose n) r.nameOf? r'.nameOf?) t

section

variable {r : Registry} {d e : DocumentId}

/-- The analysis of another document leaves a document silent. -/
theorem Silent.analyze (hsilent : r.Silent d) (h : r.WellFormed) (hde : d ≠ e) (source : String)
    (text : String) (tree : Tree) : (GrammarIndex.analyze source r e text tree).2.Silent d := by
  have hids := congrArg (·.idsIn d) (h.forget_analyze source e text tree)
  simp only [idsIn_forget, if_neg hde.symm, idsIn_mention] at hids
  rw [(h.analyze source e text tree).silent_iff, hids]
  exact h.silent_iff.mp hsilent

/-! ### Names that were mentioned -/

/-- The handle of a name is that of a symbol of that name. -/
theorem WellFormed.lookup?_bind_nameOf? (h : r.WellFormed) (n : String) :
    (r.lookup? n).bind r.nameOf? = if (r.lookup? n).isSome then some n else none := by
  cases hlookup : r.lookup? n with
  | none => rfl
  | some i =>
    obtain ⟨s, hs, hname⟩ := h.lookup?_eq_some_iff.mp hlookup
    simp [nameOf?, hs, hname]

theorem nameOf?_mention_of_lt {i : SymbolId} (hi : i.index < r.size) (names : List String) :
    (r.mention names).nameOf? i = r.nameOf? i := by
  rw [nameOf?, symbol?_mention_of_lt hi, nameOf?]

theorem knowsAll_mention (r : Registry) {names names' : List String} (h : names ⊆ names') :
    (r.mention names').KnowsAll names := by
  intro name hname
  rw [isSome_lookup?_mention]
  simp [h hname]

/-- However names are mentioned, a symbol is the one from before, or a placeholder. -/
theorem WellFormed.symbolNamed?_mention_cases (h : r.WellFormed) {names : List String} {n : String}
    {s : Symbol} (hs : (r.mention names).symbolNamed? n = some s) :
    r.symbolNamed? n = some s ∨ (r.lookup? n = none ∧ s = .placeholder s.id n) := by
  obtain ⟨i, hi, hs⟩ := Option.bind_eq_some_iff.mp hs
  have hname : s.qualifiedName = n := by
    obtain ⟨s', hs', hname'⟩ := (h.mention names).lookup?_eq_some_iff.mp hi
    rw [Option.some.inj (hs.symm.trans hs'), hname']
  cases hold : r.symbol? i with
  -- a handle that was there has the same symbol, and any other has a placeholder
  | some s₀ =>
    have hlt : i.index < r.size := symbol?_isSome_iff.mp (by rw [hold]; rfl)
    rw [symbol?_mention_of_lt hlt] at hs
    have hlookup : r.lookup? n = some i := h.lookup?_eq_some_iff.mpr ⟨s, hs, hname⟩
    exact .inl (by rw [symbolNamed?, hlookup, Option.bind_some, hs])
  | none =>
    have hplaceholder := eq_placeholder_of_symbol?_mention hs hold
    rw [hname] at hplaceholder
    refine .inr ⟨?_, ?_⟩
    · cases hlookup : r.lookup? n with
      | none => rfl
      | some j =>
        -- a name from before would have kept its handle
        rw [lookup?_mention hlookup names, Option.some.injEq] at hi
        obtain ⟨s₀, hs₀, -⟩ := h.lookup?_eq_some_iff.mp hlookup
        rw [hi, hold] at hs₀
        exact absurd hs₀ (by simp)
    · have hid : s.id = i := congrArg Symbol.id hplaceholder
      rw [hid, ← hplaceholder]

end

end Registry

namespace Symbol

/-- A symbol and its like, with two documents in the other order. -/
theorem Alike.sameButOrder {related : Option SymbolId → Option SymbolId → Prop} {s t u : Symbol}
    {d e : DocumentId} (hde : d ≠ e) (hnone : related none none) (h : s.Alike related u)
    (h' : u.Reordered d e t) : s.SameButOrder d e related t where
  kind? := h.kind?.trans h'.kind?
  parent? := h'.parent? ▸ h.parent? hnone
  definitionsIn := by
    intro document
    have hdefinitions : s.definitionsIn document = u.definitionsIn document := by
      rw [Symbol.definitionsIn, h.definitions, Symbol.definitionsIn]
    rw [hdefinitions]
    refine h'.eq_of_forget hde (·.definitionsIn document) document fun hother w => ?_
    rw [definitionsIn_forget, if_neg hother]
  referencesIn := by
    intro document
    have hreferences : s.referencesIn document = u.referencesIn document := by
      rw [Symbol.referencesIn, h.references, Symbol.referencesIn]
    rw [hreferences]
    refine h'.eq_of_forget hde (·.referencesIn document) document fun hother w => ?_
    rw [referencesIn_forget, if_neg hother]
  forget := by
    intro document hdocument
    have hforget : u.forget document = t.forget document := by
      rcases List.mem_pair.mp hdocument with rfl | rfl
      · exact h'.forget_left
      · exact h'.forget_right
    rw [← hforget]
    exact h.forget document

end Symbol

/-! ### Documents that hold none of each other's grammars -/

/-- The documents declare different grammars under names without dots, and neither has a
parent that the other declares. -/
structure Independent (x y : ParsedDocument) : Prop where
  /-- They are different documents. -/
  id_ne : x.id ≠ y.id
  /-- They declare different grammars, and no name of a grammar or parent has a dot. -/
  apart : Apart [x, y]
  /-- The first has no parent that the second declares. -/
  parent_ne_left : ∀ g ∈ x.tree.grammars, ∀ p ∈ g.parents, ∀ g' ∈ y.tree.grammars,
    p.text ≠ g'.name.text
  /-- The second has no parent that the first declares. -/
  parent_ne_right : ∀ g ∈ y.tree.grammars, ∀ p ∈ g.parents, ∀ g' ∈ x.tree.grammars,
    p.text ≠ g'.name.text

namespace Independent

variable {x y : ParsedDocument} {n : String}

theorem symm (h : Independent x y) : Independent y x where
  id_ne := h.id_ne.symm
  apart :=
    have hmem : ∀ z ∈ [y, x], z ∈ [x, y] := fun z hz => by simpa [or_comm] using hz
    { eq_of_id := fun z hz w hw => h.apart.eq_of_id z (hmem z hz) w (hmem w hw)
      dotless_name := fun z hz => h.apart.dotless_name z (hmem z hz)
      dotless_parent := fun z hz => h.apart.dotless_parent z (hmem z hz)
      eq_of_name := fun z hz w hw => h.apart.eq_of_name z (hmem z hz) w (hmem w hw) }
  parent_ne_left := h.parent_ne_right
  parent_ne_right := h.parent_ne_left

theorem dotless_of_inherits (h : Independent x y) {parent : String}
    (hparent : x.tree.Inherits parent) : Dotless parent := by
  obtain ⟨g, hg, p, hp, rfl⟩ := hparent
  exact h.apart.dotless_parent x List.mem_cons_self g hg p hp

theorem ne (h : Independent x y) : x ≠ y := fun heq => h.id_ne (congrArg _ heq)

/-- What one document holds, the other neither holds nor sees. -/
theorem not_sees_of_holds (h : Independent x y) (hx : x.Holds n) :
    ¬ y.Holds n ∧ ¬ y.Sees n := by
  have hxmem : x ∈ [x, y] := List.mem_cons_self
  have hymem : y ∈ [x, y] := List.mem_cons_of_mem _ (List.mem_singleton_self y)
  -- a grammar has no dot in its name, and everything in it has one
  rcases hx with ⟨g, hg, rfl⟩ | hxn
  · have hdotless := h.apart.dotless_name x hxmem g hg
    constructor
    · rintro (⟨g', hg', heq⟩ | hyn)
      · exact h.ne (h.apart.eq_of_name x hxmem y hymem g hg g' hg' heq.symm)
      · exact hyn.not_dotless hdotless
    · rintro (⟨g', hg', p, hp, heq⟩ | ⟨parent, name, -, heq⟩)
      · exact h.parent_ne_right g' hg' p hp g hg heq
      · exact qualify_ne_of_dotless hdotless parent name heq
  · constructor
    · rintro (⟨g', hg', rfl⟩ | hyn)
      · exact hxn.not_dotless (h.apart.dotless_name y hymem g' hg')
      · exact h.ne (h.apart.eq_of_owns hxmem hymem hxn hyn)
    · rintro (hparent | ⟨parent, name, hparent, heq⟩)
      · exact hxn.not_dotless (h.symm.dotless_of_inherits hparent)
      · obtain ⟨g, hg, a, rfl⟩ := hxn
        -- a name in a parent is in no grammar but the parent itself
        have hscope := ((qualify_inj (h.symm.dotless_of_inherits hparent)
          (h.apart.dotless_name x hxmem g hg)).mp heq).1
        obtain ⟨g', hg', p, hp, rfl⟩ := hparent
        exact h.parent_ne_right g' hg' p hp g hg hscope

/-- If both documents speak of a name, both are mild about it. -/
theorem mild_of_utters (h : Independent x y) {ms ms' : List Move} (hms : ∀ m ∈ ms, x.Utters m)
    (hms' : ∀ m ∈ ms', y.Utters m) (n : String) :
    (∀ m ∈ ms, n ∉ m.names) ∨ (∀ m ∈ ms', n ∉ m.names) ∨
      ∀ m ∈ ms ++ ms', n ∈ m.names → m.isMild = true := by
  by_cases hx : ∃ m ∈ ms, n ∈ m.names
  · by_cases hy : ∃ m ∈ ms', n ∈ m.names
    · -- both speak of the name, and so neither of them holds it
      obtain ⟨m₁, hm₁, hn₁⟩ := hx
      obtain ⟨m₂, hm₂, hn₂⟩ := hy
      have hxn : ¬ x.Holds n := fun hholds => by
        obtain ⟨hyholds, hysees⟩ := h.not_sees_of_holds hholds
        exact (hms' m₂ hm₂ n hn₂).elim hyholds fun hsees => hysees hsees.1
      have hyn : ¬ y.Holds n := fun hholds => by
        obtain ⟨hxholds, hxsees⟩ := h.symm.not_sees_of_holds hholds
        exact (hms m₁ hm₁ n hn₁).elim hxholds fun hsees => hxsees hsees.1
      -- whatever is seen and not held is only called a grammar or referred to
      refine .inr (.inr fun m hm hn => ?_)
      rcases List.mem_append.mp hm with hm | hm
      · exact ((hms m hm n hn).resolve_left hxn).2
      · exact ((hms' m hm n hn).resolve_left hyn).2
    · exact .inr (.inl fun m hm hn => hy ⟨m, hm, hn⟩)
  · exact .inl fun m hm hn => hx ⟨m, hm, hn⟩

/-! ### One analysis after the other -/

section

variable {r : Registry} {source : String}

/-- **Neither document changes the kinds that the other looks up.** -/
theorem kindNamed?_analyze (h : Independent x y) (hr : r.WellFormed) (hx : r.Silent x.id)
    (hy : r.Silent y.id) {b : Analysis} (hyok : (y.analyze source r).1 = .ok b) {parent : String}
    (hparent : x.tree.Inherits parent) (name : String) :
    ((y.analyze source r).2.forget x.id).kindNamed? (qualify parent name) =
      (r.forget x.id).kindNamed? (qualify parent name) := by
  have hry : (y.analyze source r).2.WellFormed := hr.analyze source y.id y.text y.tree
  have hymem : y ∈ [x, y] := List.mem_cons_of_mem _ (List.mem_singleton_self y)
  have hunowned : ¬ y.Owns (qualify parent name) := by
    rintro ⟨g, hg, a, heq⟩
    have hscope := ((qualify_inj (h.dotless_of_inherits hparent)
      (h.apart.dotless_name y hymem g hg)).mp heq).1
    obtain ⟨g', hg', p, hp, rfl⟩ := hparent
    exact h.parent_ne_left g' hg' p hp g hg hscope
  rw [hry.forget_of_silent (hx.analyze hr h.id_ne source y.text y.tree),
    hr.forget_of_silent hx, ← Registry.kind_standing _ y.id, ParsedDocument.analyze,
    hr.standing_analyze hyok, h.apart.foldl_effect hymem (not_dotless_qualify parent name) hunowned,
    hr.forget_of_silent hy]
  rfl

/-- The moves of a document are the same before and after the analysis of the other. -/
theorem analysisMoves_analyze (h : Independent x y) (hr : r.WellFormed) (hx : r.Silent x.id)
    (hy : r.Silent y.id) {b : Analysis} (hyok : (y.analyze source r).1 = .ok b) :
    analysisMoves source (y.analyze source r).2 x.id x.text x.tree =
      analysisMoves source r x.id x.text x.tree :=
  analysisMoves_congr (hr.analyze source y.id y.text y.tree) hr
    (fun hparent name => h.kindNamed?_analyze hr hx hy hyok hparent name) source x.text

/-- Names that are mentioned make no difference to the moves of a document. -/
theorem analysisMoves_mention (hr : r.WellFormed) (names : List String) (source : String)
    (x : ParsedDocument) :
    analysisMoves source (r.mention names) x.id x.text x.tree =
      analysisMoves source r x.id x.text x.tree :=
  analysisMoves_congr (hr.mention names) hr
    (fun _ name => by rw [Registry.forget_mention, Registry.kindNamed?_mention]) source x.text

/-- A document finds the same before and after the analysis of the other. -/
theorem exists_gives (h : Independent x y) (hr : r.WellFormed) (hx : r.Silent x.id)
    (hy : r.Silent y.id) {a b : Analysis} (hxok : (x.analyze source r).1 = .ok a)
    (hyok : (y.analyze source r).1 = .ok b) :
    ∃ f : Finding, Registry.Gives (x.analyze source r) (.ok f) ∧
      Registry.Gives (x.analyze source (y.analyze source r).2) (.ok f) := by
  have hry : (y.analyze source r).2.WellFormed := hr.analyze source y.id y.text y.tree
  obtain ⟨f, -, hf, -⟩ := hr.exists_analyze_eq_ok hr hxok
  have hgives := hr.gives_analyze source x.id x.text x.tree
  have hgives' := hry.gives_analyze source x.id x.text x.tree
  rw [findingOf_congr_of_inherits
    (fun hparent name => h.kindNamed?_analyze hr hx hy hyok hparent name), hf] at hgives'
  rw [hf] at hgives
  exact ⟨f, hgives, hgives'⟩

/-- The names that two documents mention, those of the first before those of the second. -/
def mentions (source : String) (r : Registry) (x y : ParsedDocument) : List String :=
  analysisNames source r x.id x.text x.tree ++ analysisNames source r y.id y.text y.tree

/-- A silent document is heard by every symbol, if the registry knows the names of its moves. -/
theorem changedBy_of_analyze_eq_ok (hr : r.WellFormed) (hx : r.Silent x.id) {a : Analysis}
    {r' : Registry} (hok : x.analyze source r = (.ok a, r')) {ms : List Move}
    (hmoves : analysisMoves source r x.id x.text x.tree = ms)
    (hknown : r.KnowsAll (Move.namesOfAll ms)) :
    r.ChangedBy r' (·.hearAll r.lookup? x.id ms) := by
  subst hmoves
  have hlast : (x.analyze source r).2 = r' := congrArg Prod.snd hok
  have hheard := hr.changedBy_analyze (congrArg Prod.fst hok) hknown
  rw [hr.forget_of_silent hx] at hheard
  rw [← hlast]
  exact hheard

/-- **Every symbol hears first one document and then the other**, in the registry that knows
all names from the beginning. -/
theorem changedBy_analyze_analyze (h : Independent x y) (hr : r.WellFormed) (hx : r.Silent x.id)
    (hy : r.Silent y.id) {a b : Analysis} (hxok : (x.analyze source r).1 = .ok a)
    (hyok : (y.analyze source r).1 = .ok b) :
    let known := r.mention (mentions source r x y)
    known.ChangedBy (y.analyze source (x.analyze source r).2).2 fun s =>
      (s.hearAll known.lookup? x.id (analysisMoves source r x.id x.text x.tree)).hearAll
        known.lookup? y.id (analysisMoves source r y.id y.text y.tree) := by
  intro known
  let rx := (x.analyze source r).2
  let last := (y.analyze source rx).2
  let ynames := analysisNames source r y.id y.text y.tree
  have hknown : known.WellFormed := hr.mention _
  have hrx : rx.WellFormed := hr.analyze source x.id x.text x.tree
  -- the first analysis, with the names of the second mentioned after its own
  have hfirst : x.analyze source known = (.ok a, rx.mention ynames) :=
    hr.analyze_mention hxok ynames
  have hheard := changedBy_of_analyze_eq_ok hknown (hx.mention hr _) hfirst
    (analysisMoves_mention hr _ source x)
    (r.knowsAll_mention (List.subset_append_left _ _))
  -- the second, which finds its names mentioned
  have hmoves : analysisMoves source rx y.id y.text y.tree =
      analysisMoves source r y.id y.text y.tree := h.symm.analysisMoves_analyze hr hy hx hxok
  have hnames : analysisNames source rx y.id y.text y.tree = ynames :=
    congrArg Move.namesOfAll hmoves
  obtain ⟨-, b', -, hb'⟩ := hrx.exists_analyze_eq_ok hr hyok
  have hsecond : y.analyze source (rx.mention ynames) = (.ok b', last) := by
    have hmention := hrx.analyze_mention hb' []
    rwa [List.append_nil, hnames] at hmention
  have hy' : (rx.mention ynames).Silent y.id :=
    (hy.analyze hr h.id_ne.symm source x.text x.tree).mention hrx ynames
  have hheard' := changedBy_of_analyze_eq_ok (hrx.mention ynames) hy' hsecond
    ((analysisMoves_mention hrx ynames source y).trans hmoves)
    (rx.knowsAll_mention fun _ hname => hname)
  rw [hheard.lookup?] at hheard'
  exact hheard.trans hheard'

/-- The names that two documents mention are known in either order. -/
theorem isSome_lookup?_mentions (source : String) (r : Registry) (x y : ParsedDocument)
    (n : String) :
    ((r.mention (mentions source r x y)).lookup? n).isSome =
      ((r.mention (mentions source r y x)).lookup? n).isSome := by
  simp only [Registry.isSome_lookup?_mention, mentions, List.mem_append, or_comm]

/-- The owner of a name has the same name in either order. -/
theorem bind_nameOf?_mentions (hr : r.WellFormed) (source : String) (x y : ParsedDocument)
    (owner : Option String) :
    (owner.bind (r.mention (mentions source r x y)).lookup?).bind
        (r.mention (mentions source r x y)).nameOf? =
      (owner.bind (r.mention (mentions source r y x)).lookup?).bind
        (r.mention (mentions source r y x)).nameOf? := by
  cases owner with
  | none => rfl
  | some o =>
    have hsame := isSome_lookup?_mentions source r x y o
    rw [Option.bind_some, Option.bind_some, (hr.mention _).lookup?_bind_nameOf?,
      (hr.mention _).lookup?_bind_nameOf?, hsame]

/-- The symbol of a name before two documents are heard is, in either order, the one from
before, or a placeholder. -/
theorem alike_mentions (hr : r.WellFormed) {s t : Symbol}
    (hs : (r.mention (mentions source r x y)).symbolNamed? n = some s)
    (ht : (r.mention (mentions source r y x)).symbolNamed? n = some t) :
    s.Alike (ParentsAlike (r.Foresees n) (r.mention (mentions source r x y)).nameOf?
      (r.mention (mentions source r y x)).nameOf?) t := by
  have hnone : r.lookup? n = none → r.symbolNamed? n = none := fun hlookup => by
    rw [Registry.symbolNamed?, hlookup, Option.bind_none]
  -- old in both, or new in both: which names are known does not hang on the order
  rcases hr.symbolNamed?_mention_cases hs with hold | ⟨hnew, hs'⟩
  · rcases hr.symbolNamed?_mention_cases ht with hold' | ⟨hnew, -⟩
    · obtain rfl := Option.some.inj (hold.symm.trans hold')
      refine ⟨rfl, List.forall₂_same.mpr fun e he => ⟨rfl, rfl, ?_⟩, rfl, rfl⟩
      cases hparent : e.2.parent with
      | none => exact .inl rfl
      | some i =>
        by_cases hi : i.index < r.size
        · -- a parent that was there has kept its name
          refine .inl ?_
          rw [Option.bind_some, Option.bind_some, Registry.nameOf?_mention_of_lt hi,
            Registry.nameOf?_mention_of_lt hi]
        · exact .inr ⟨i, ⟨Nat.not_lt.mp hi, s, hold, e, he, hparent⟩, rfl, rfl⟩
    · exact absurd (hold.symm.trans (hnone hnew)) (by simp)
  · rcases hr.symbolNamed?_mention_cases ht with hold' | ⟨-, ht'⟩
    · exact absurd (hold'.symm.trans (hnone hnew)) (by simp)
    · rw [hs', ht']
      exact ⟨rfl, .nil, rfl, rfl⟩

/-- **Two orders of analysis leave two registries that tell the same.** -/
theorem sameButOrder_analyze_analyze (h : Independent x y) (hr : r.WellFormed)
    (hx : r.Silent x.id) (hy : r.Silent y.id) {a b : Analysis}
    (hxok : (x.analyze source r).1 = .ok a) (hyok : (y.analyze source r).1 = .ok b) :
    Registry.SameButOrder x.id y.id r.Foresees (y.analyze source (x.analyze source r).2).2
      (x.analyze source (y.analyze source r).2).2 := by
  have hheard := h.changedBy_analyze_analyze hr hx hy hxok hyok
  have hheard' := h.symm.changedBy_analyze_analyze hr hy hx hyok hxok
  refine ⟨fun n => ?_, fun {n s t} hs ht => ?_⟩
  · rw [hheard.lookup?, hheard'.lookup?]
    exact isSome_lookup?_mentions source r x y n
  · -- the symbols before they heard the two documents
    rw [hheard.symbolNamed?] at hs
    rw [hheard'.symbolNamed?] at ht
    obtain ⟨s₀, hs₀, rfl⟩ := Option.map_eq_some_iff.mp hs
    obtain ⟨t₀, ht₀, rfl⟩ := Option.map_eq_some_iff.mp ht
    rw [hheard.nameOf? (by simp), hheard'.nameOf? (by simp)]
    have hspoken : ∀ {d : DocumentId}, r.Silent d → ¬ t₀.SpokenOfBy d := by
      intro d hd
      obtain ⟨i, -, hi⟩ := Option.bind_eq_some_iff.mp ht₀
      exact (hd.mention hr _).not_spokenOfBy hi
    have hxutters : ∀ m ∈ analysisMoves source r x.id x.text x.tree, x.Utters m :=
      fun _ hm => ParsedDocument.utters_of_mem_analysisMoves hr hm
    have hyutters : ∀ m ∈ analysisMoves source r y.id y.text y.tree, y.Utters m :=
      fun _ hm => ParsedDocument.utters_of_mem_analysisMoves hr hm
    have hmild := h.mild_of_utters hxutters hyutters t₀.qualifiedName
    -- parents are mentioned in either order, and handles tell the same names
    have howner : ∀ owner : Option String, ParentsAlike (r.Foresees n) _ _ _ _ := fun owner =>
      .inl (bind_nameOf?_mentions hr source x y owner)
    -- so the symbols were alike, and hearing the two documents keeps them so
    have halike := alike_mentions hr hs₀ ht₀
    exact ((halike.hearAll howner x.id _).hearAll howner y.id _).sameButOrder h.id_ne (.inl rfl)
      (Symbol.reordered_hearAll h.id_ne (hspoken hx) (hspoken hy) hmild)

end

end Independent

/-- **Independent documents may be analysed in either order.**  After whatever history of
which both documents are forgotten, each of the two finds the same whether it comes first or
second: the same diagnostics, and definitions and references that agree entry by entry in
range and qualified name.  And in the end there are the same names, with the same kinds, and
every document defines and references them at the same ranges in the same order, but for
handles and for the order of the two documents in a symbol.  Parents have the same names, too,
unless a parent was stated beforehand by a handle that nobody had: that handle remains. -/
theorem analyze_comm (history : List Registry.Event) (source : String) {x y : ParsedDocument}
    (h : Independent x y) (hx : (Registry.after history).Silent x.id)
    (hy : (Registry.after history).Silent y.id) {a b : Analysis}
    (hxok : (x.analyze source (Registry.after history)).1 = .ok a)
    (hyok : (y.analyze source (Registry.after history)).1 = .ok b) :
    let r := Registry.after history
    let rx := (x.analyze source r).2
    let ry := (y.analyze source r).2
    (∃ f : Finding, Registry.Gives (x.analyze source r) (.ok f) ∧
        Registry.Gives (x.analyze source ry) (.ok f)) ∧
      (∃ g : Finding, Registry.Gives (y.analyze source rx) (.ok g) ∧
        Registry.Gives (y.analyze source r) (.ok g)) ∧
      Registry.SameButOrder x.id y.id r.Foresees (y.analyze source rx).2
        (x.analyze source ry).2 := by
  intro r rx ry
  have hr : r.WellFormed := Registry.wellFormed_after history
  obtain ⟨g, hg, hg'⟩ := h.symm.exists_gives hr hy hx hyok hxok
  exact ⟨h.exists_gives hr hx hy hxok hyok, ⟨g, hg', hg⟩,
    h.sameButOrder_analyze_analyze hr hx hy hxok hyok⟩

/-! ### Two siblings -/

/-- Two grammars with one parent, each with a terminal that mentions one of the parent. -/
def siblings : List ParsedDocument :=
  [⟨⟨0⟩, "A:P{T->X}", ⟨[⟨⟨"A", ⟨0, 1⟩⟩, [⟨"P", ⟨2, 3⟩⟩], [],
      [.terminal ⟨"T", ⟨4, 5⟩⟩ (.reference ⟨"X", ⟨7, 8⟩⟩)], []⟩]⟩⟩,
    ⟨⟨1⟩, "B:P{U->X}", ⟨[⟨⟨"B", ⟨0, 1⟩⟩, [⟨"P", ⟨2, 3⟩⟩], [],
      [.terminal ⟨"U", ⟨4, 5⟩⟩ (.reference ⟨"X", ⟨7, 8⟩⟩)], []⟩]⟩⟩]

theorem independent_siblings : Independent siblings[0] siblings[1] where
  id_ne := by decide
  apart := by
    have hids : siblings[0].id ≠ siblings[1].id := by decide
    refine ⟨?_, ?_, ?_, ?_⟩
    · simp [hids, hids.symm]
    · simp [siblings, Dotless]
    · simp [siblings, Dotless]
    · simp [siblings]
  parent_ne_left := by simp [siblings]
  parent_ne_right := by simp [siblings]

/-- The two can be analysed whatever has happened before. -/
theorem exists_analyze_siblings_eq_ok (history : List Registry.Event) :
    ∀ z ∈ siblings, ∃ a, (z.analyze "hime" (Registry.after history)).1 = .ok a := by
  have hsome : ∀ z ∈ siblings, (z.analyze "hime" .empty).1.toOption.isSome = true := by
    decide +kernel
  intro z hz
  have hz' := hsome z hz
  cases houtcome : (z.analyze "hime" .empty).1 with
  | ok a =>
    obtain ⟨-, b, -, hb⟩ := (Registry.wellFormed_after history).exists_analyze_eq_ok .empty houtcome
    exact ⟨b, hb⟩
  | error fault => simp [houtcome, Except.toOption] at hz'

/-- The parent of the siblings, which has the terminal that they mention. -/
def parentFirst : List Registry.Event :=
  [.analysis "hime" ⟨2⟩ "P{X->x}" (.ok ⟨[⟨⟨"P", ⟨0, 1⟩⟩, [], [],
    [.terminal ⟨"X", ⟨2, 3⟩⟩ (.atom ⟨"x", ⟨5, 6⟩⟩)], []⟩]⟩)]

/-- Both siblings reference the grammar `P` and its terminal `X`, in either order. -/
theorem analyze_comm_siblings :
    let r := Registry.after parentFirst
    let x := siblings[0]
    let y := siblings[1]
    let rx := (x.analyze "hime" r).2
    let ry := (y.analyze "hime" r).2
    Independent x y ∧ r.Silent x.id ∧ r.Silent y.id ∧
      (∃ a, (x.analyze "hime" r).1 = .ok a) ∧ (∃ b, (y.analyze "hime" r).1 = .ok b) ∧
      (∃ f : Finding, Registry.Gives (x.analyze "hime" r) (.ok f) ∧
        Registry.Gives (x.analyze "hime" ry) (.ok f)) ∧
      (∃ g : Finding, Registry.Gives (y.analyze "hime" rx) (.ok g) ∧
        Registry.Gives (y.analyze "hime" r) (.ok g)) ∧
      Registry.SameButOrder x.id y.id r.Foresees (y.analyze "hime" rx).2
        (x.analyze "hime" ry).2 := by
  intro r x y rx ry
  have hwf : r.WellFormed := Registry.wellFormed_after parentFirst
  have hx : r.Silent x.id := hwf.silent_iff.mpr (by decide +kernel)
  have hy : r.Silent y.id := hwf.silent_iff.mpr (by decide +kernel)
  obtain ⟨a, ha⟩ := exists_analyze_siblings_eq_ok parentFirst x (by simp [x])
  obtain ⟨b, hb⟩ := exists_analyze_siblings_eq_ok parentFirst y (by simp [y])
  exact ⟨independent_siblings, hx, hy, ⟨a, ha⟩, ⟨b, hb⟩,
    analyze_comm parentFirst "hime" independent_siblings hx hy ha hb⟩

/-- A document has defined `X`, and stated that it belongs to the next handle to be given out. -/
def parentForeseen : List Registry.Event :=
  [.operation (.resolve "X"), .operation (.setKind ⟨2⟩ ⟨0⟩ .terminal (some ⟨1⟩)),
    .operation (.addDefinition ⟨2⟩ ⟨0⟩ ⟨⟨0, 0⟩, ⟨0, 1⟩⟩)]

/-- **A parent that is not there yet depends on the order**: the next handle is that of the
grammar `A` if the first sibling is analysed first, and that of `B` otherwise. -/
theorem analyze_not_comm_parentForeseen :
    let r := Registry.after parentForeseen
    let x := siblings[0]
    let y := siblings[1]
    let rxy := (y.analyze "hime" (x.analyze "hime" r).2).2
    let ryx := (x.analyze "hime" (y.analyze "hime" r).2).2
    Independent x y ∧ r.Silent x.id ∧ r.Silent y.id ∧
      (∃ a, (x.analyze "hime" r).1 = .ok a) ∧ (∃ b, (y.analyze "hime" r).1 = .ok b) ∧
      (rxy.symbolNamed? "X").map (·.parent?.bind rxy.nameOf?) = some (some "A") ∧
      (ryx.symbolNamed? "X").map (·.parent?.bind ryx.nameOf?) = some (some "B") := by
  intro r x y rxy ryx
  have hwf : r.WellFormed := Registry.wellFormed_after parentForeseen
  refine ⟨independent_siblings, hwf.silent_iff.mpr ?_, hwf.silent_iff.mpr ?_, ?_, ?_, ?_, ?_⟩
  · decide +kernel
  · decide +kernel
  · exact exists_analyze_siblings_eq_ok parentForeseen x (by simp [x])
  · exact exists_analyze_siblings_eq_ok parentForeseen y (by simp [y])
  · decide +kernel
  · decide +kernel

end GrammarIndex
