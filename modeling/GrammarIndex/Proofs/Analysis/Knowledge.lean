import GrammarIndex.Proofs.Analysis.View

/-!
# More knowledge, fewer mistakes

The other documents of a registry give names their kinds, and more of them give more
names a kind.  Two passes over one document, where the second knows more than the
first, do not stay in step: a use may settle the kind of a name in one of them and be
refused in the other, and then a definition further down does different things.  But a
name whose kind was settled by a use is never a terminal, so that whatever is found in
the first pass is still found in the second.

## Main definitions

* `Standing.Below` — how a name may stand in two passes, the second of which knows more.
* `View.KnowsLess` — the second view knows more than the first.
* `Finding.Improves` — what more knowledge can do to a finding.

## Main results

* `Standing.Below.settle`, `Standing.Below.suggest` — one change of a standing.
* `View.KnowsLess.walk` — the second view goes on knowing more.
* `gives_improves_of_kindNamed?` — **more knowledge never creates a diagnostic.**
-/

namespace GrammarIndex

/-! ### One name -/

namespace Standing

/-- How one name may stand in two passes over a document, the second of which began
with more knowledge. -/
inductive Below : Standing → Standing → Prop
  /-- There is no difference, or none any longer. -/
  | same (s : Standing) : Below s s
  /-- Only the second pass knew the name, and the document has not spoken of it. -/
  | unknown (kind : Option Kind) : Below (.ofOthers none) (.ofOthers kind)
  /-- A use has settled the kind in the first pass.  No use settles for a terminal. -/
  | used {kind : Kind} (hkind : kind ≠ .terminal) {s : Standing} (hs : s.kind.isSome) :
    Below ⟨some kind, true⟩ s

theorem isSome_kind_settle {s : Standing} (h : s.kind.isSome = true) (kind : Kind) :
    (s.settle kind).kind.isSome = true := by
  unfold settle
  split
  · exact h
  · rfl

theorem isSome_kind_suggest {s : Standing} (h : s.kind.isSome = true) (kind : Kind) :
    (s.suggest kind).kind.isSome = true := by
  unfold suggest
  split
  · exact isSome_kind_settle h kind
  · exact h

namespace Below

variable {s t : Standing}

/-- A definition. -/
theorem settle (h : s.Below t) (kind : Kind) : (s.settle kind).Below (t.settle kind) := by
  cases h with
  | same => exact .same _
  | unknown => exact .same _
  | used hkind hs => exact .used hkind (isSome_kind_settle hs kind)

/-- A use. -/
theorem suggest (h : s.Below t) {kind : Kind} (hkind : kind ≠ .terminal) :
    (s.suggest kind).Below (t.suggest kind) := by
  cases h with
  | same => exact .same _
  | unknown known =>
    cases known with
    | none => exact .same _
    | some known =>
      -- the first pass takes the use; the second may refuse it and keep what it knew
      exact .used hkind (isSome_kind_suggest rfl kind)
  | used hsettled hs =>
    rename_i settled
    have hkept : (⟨some settled, true⟩ : Standing).suggest kind = ⟨some settled, true⟩ := by
      unfold Standing.suggest
      split <;> rfl
    rw [hkept]
    exact .used hsettled (isSome_kind_suggest hs kind)

theorem isSome_kind (h : s.Below t) (hs : s.kind.isSome = true) : t.kind.isSome = true := by
  cases h with
  | same => exact hs
  | unknown => exact absurd hs (by simp [ofOthers])
  | used hkind ht => exact ht

theorem kind_eq_terminal (h : s.Below t) (hs : s.kind = some .terminal) :
    t.kind = some .terminal := by
  cases h with
  | same => exact hs
  | unknown => exact absurd hs (by simp [ofOthers])
  | used hkind ht => exact absurd (Option.some.inj hs) hkind

end Below

end Standing

/-! ### Mistakes that more knowledge can mend -/

/-- The mistake is a name that neither the grammar nor a parent has: another document
may still declare it in a parent. -/
def Mistake.isMissingName : Mistake → Bool
  | missingTerminal => true
  | missingSymbol => true
  | _ => false

/-- The meaning of a use in two passes, the second of which knows more. -/
inductive Meaning.Improves : Meaning → Meaning → Prop
  /-- Both have found a symbol, though maybe in different parents. -/
  | symbols (q q' : String) : Improves (.symbol q) (.symbol q')
  /-- Both have found the same mistake. -/
  | mistakes (m : Mistake) : Improves (.mistake m) (.mistake m)
  /-- The second has found a symbol that the first did not know. -/
  | mended {m : Mistake} (hm : m.isMissingName = true) (q : String) :
    Improves (.mistake m) (.symbol q)

theorem Meaning.improves_refl (meaning : Meaning) : meaning.Improves meaning := by
  cases meaning with
  | symbol q => exact .symbols q q
  | mistake m => exact .mistakes m

theorem Meaning.improves_ofImported {found found' : Option String} {m : Mistake}
    (h : found.isSome = true → found'.isSome = true) (hm : m.isMissingName = true) :
    (Meaning.ofImported found m).Improves (.ofImported found' m) := by
  cases found with
  | none =>
    cases found' with
    | none => exact .mistakes m
    | some q => exact .mended hm q
  | some q =>
    obtain ⟨q', rfl⟩ := Option.isSome_iff_exists.mp (h rfl)
    exact .symbols q q'

namespace Scope

/-- A name that a parent has is still found where more names have an accepted kind. -/
theorem isSome_importedName? {kindOf kindOf' : String → Option Kind} {accepts : Kind → Bool}
    (h : ∀ q, (kindOf q).any accepts = true → (kindOf' q).any accepts = true) (scope : Scope)
    (name : String) (hfound : (scope.importedName? kindOf name accepts).isSome = true) :
    (scope.importedName? kindOf' name accepts).isSome = true := by
  simp only [importedName?, List.find?_isSome] at hfound ⊢
  obtain ⟨q, hq, haccepts⟩ := hfound
  exact ⟨q, hq, h q haccepts⟩

/-- A use means no less where more is known. -/
theorem meaning_improves {kindOf kindOf' : String → Option Kind}
    (hknown : ∀ q, (kindOf q).isSome = true → (kindOf' q).isSome = true)
    (hterminal : ∀ q, kindOf q = some .terminal → kindOf' q = some .terminal) (scope : Scope)
    (grammar : String) (use : Use) (name : String) :
    (scope.meaning kindOf grammar use name).Improves
      (scope.meaning kindOf' grammar use name) := by
  -- only names that are looked for in the parents can mean something else
  cases use with
  | lexical owner =>
    simp only [meaning]
    split
    · exact .mistakes _
    · split
      · exact .symbols _ _
      · -- a parent that has the terminal has it still
        refine Meaning.improves_ofImported (isSome_importedName? ?_ scope name) rfl
        intro q hq
        obtain ⟨kind, hkind, haccepted⟩ := (Option.any_eq_true _ _).mp hq
        rw [of_decide_eq_true haccepted] at hkind
        rw [hterminal q hkind]
        rfl
  | symbol rule parameters =>
    simp only [meaning]
    split
    · exact .symbols _ _
    · split
      · exact .symbols _ _
      · split
        · exact .symbols _ _
        · -- a parent that has the name has it still, of whatever kind
          refine Meaning.improves_ofImported (isSome_importedName? ?_ scope name) rfl
          intro q hq
          obtain ⟨kind, hkind, -⟩ := (Option.any_eq_true _ _).mp hq
          obtain ⟨kind', hkind'⟩ :=
            Option.isSome_iff_exists.mp (hknown q (by rw [hkind]; rfl))
          rw [hkind']
          rfl
  | _ => exact Meaning.improves_refl _

end Scope

/-- No use declares a terminal. -/
theorem Use.suggestion?_ne_terminal {use : Use} {grammar name q : String} {kind : Kind}
    (h : use.suggestion? grammar name = some (q, kind)) : kind ≠ .terminal := by
  cases use <;> simp only [suggestion?, Option.some.injEq, Prod.mk.injEq, reduceCtorEq] at h
  all_goals exact h.2 ▸ by decide

/-! ### Two passes -/

/-- What more knowledge can do to a finding: mend names that were missing. -/
structure Finding.Improves (f g : Finding) : Prop where
  /-- The definitions are the same. -/
  definitions : g.definitions = f.definitions
  /-- No diagnostic is new. -/
  diagnostics : g.diagnostics.Sublist f.diagnostics
  /-- Only missing names may have been found. -/
  lasting : g.diagnostics.filter (fun d => !d.mistake.isMissingName) =
    f.diagnostics.filter fun d => !d.mistake.isMissingName

namespace View

/-- The second view knows more than the first, and has found no other mistakes. -/
structure KnowsLess (v w : View) : Prop where
  /-- The document is the same. -/
  document : w.document = v.document
  /-- The lines are the same. -/
  lines : w.lines = v.lines
  /-- The current grammar declares the same names. -/
  scope : w.scope = v.scope
  /-- Both note mistakes for the same document. -/
  log_document : w.log.document = v.log.document
  /-- Both note mistakes under the same name. -/
  log_source : w.log.source = v.log.source
  /-- Every name stands no lower. -/
  standing : ∀ name, (v.standing name).Below (w.standing name)
  /-- The second has found nothing worse. -/
  improves : v.finding.Improves w.finding

namespace KnowsLess

variable {v w : View}

theorem start {kindOf kindOf' : String → Option Kind}
    (h : ∀ name kind, kindOf name = some kind → kindOf' name = some kind) (d : DocumentId)
    (text source : String) :
    (View.start kindOf d text source).KnowsLess (.start kindOf' d text source) where
  document := rfl
  lines := rfl
  scope := rfl
  log_document := rfl
  log_source := rfl
  standing := by
    intro name
    show (Standing.ofOthers (kindOf name)).Below (.ofOthers (kindOf' name))
    cases hkind : kindOf name with
    | none => exact .unknown _
    | some kind => rw [h name kind hkind]; exact .same _
  improves := ⟨rfl, .refl _, rfl⟩

/-- The standing of one name changes in both, and the order is kept. -/
theorem change (h : v.KnowsLess w) (name : String) {f : Standing → Standing}
    (hf : ∀ {s t : Standing}, s.Below t → (f s).Below (f t)) :
    (v.change name f).KnowsLess (w.change name f) :=
  { h with
    standing := fun n => by
      show (if n = name then f (v.standing n) else v.standing n).Below
        (if n = name then f (w.standing n) else w.standing n)
      split
      · exact hf (h.standing n)
      · exact h.standing n }

theorem define (h : v.KnowsLess w) (name : String) (kind : Kind) (range : Range) :
    (v.define name kind range).KnowsLess (w.define name kind range) :=
  { h.change name fun hst => hst.settle kind with
    improves := { h.improves with
      definitions :=
        congrArg (· ++ [(⟨name, range⟩ : NamedMention)]) h.improves.definitions } }

theorem announce (h : v.KnowsLess w) {suggestion : Option (String × Kind)}
    (hkind : ∀ {name kind}, suggestion = some (name, kind) → kind ≠ .terminal) :
    (v.announce suggestion).KnowsLess (w.announce suggestion) := by
  cases suggestion with
  | none => exact h
  | some suggested => exact h.change suggested.1 fun hst => hst.suggest (hkind rfl)

/-- One more mistake, which both have made. -/
theorem note (h : v.KnowsLess w) (m : Mistake) (range : Range) (name : String) :
    KnowsLess { v with log := v.log.note m range name }
      { w with log := w.log.note m range name } := by
  have hnoted : (w.log.note m range name).entries =
      w.log.entries ++ [.make v.log.document range m v.log.source (m.message name)] := by
    rw [← h.log_document, ← h.log_source]
    rfl
  refine { h with improves := ⟨h.improves.definitions, ?_, ?_⟩ }
  · show (w.log.note m range name).entries.Sublist _
    rw [hnoted]
    exact h.improves.diagnostics.append (.refl _)
  · show (w.log.note m range name).entries.filter _ = _
    rw [hnoted, List.filter_append]
    exact (congrArg (· ++ _) h.improves.lasting).trans (List.filter_append ..).symm

/-- One more mistake, which only the first has made. -/
theorem mend (h : v.KnowsLess w) {m : Mistake} (hm : m.isMissingName = true) (range : Range)
    (name : String) (references : List NamedMention) :
    KnowsLess { v with log := v.log.note m range name } { w with references := references } := by
  refine { h with improves := ⟨h.improves.definitions, ?_, ?_⟩ }
  · exact h.improves.diagnostics.trans (List.sublist_append_left _ _)
  · have hmendable : (Diagnostic.make v.log.document range m v.log.source
        (m.message name)).mistake.isMissingName = true := hm
    show w.log.entries.filter _ = (v.log.entries ++ [_]).filter _
    rw [List.filter_append, List.filter_cons_of_neg (by simp [hmendable]), List.filter_nil,
      List.append_nil]
    exact h.improves.lasting

theorem recordMeaning (h : v.KnowsLess w) {m m' : Meaning} (hm : m.Improves m') (name : String)
    (range : Range) :
    (v.recordMeaning m name range).KnowsLess (w.recordMeaning m' name range) := by
  cases hm with
  | symbols q q' => exact { h with improves := { h.improves with } }
  | mistakes m => exact h.note m range name
  | mended hm q => exact h.mend hm range name _

/-- What a use means is no worse in the second view. -/
theorem meaning (h : v.KnowsLess w) (grammar : String) (use : Use) (name : String) :
    (v.scope.meaning v.kindOf grammar use name).Improves
      (w.scope.meaning w.kindOf grammar use name) := by
  rw [h.scope]
  exact Scope.meaning_improves (fun q => (h.standing q).isSome_kind)
    (fun q => (h.standing q).kind_eq_terminal) v.scope grammar use name

theorem record (h : v.KnowsLess w) (grammar : String) (role : Role) (name : String)
    (range : Range) :
    (v.record grammar role name range).KnowsLess (w.record grammar role name range) := by
  have hrecorded : ∀ {v' w' : View}, v'.KnowsLess w' →
      KnowsLess { v' with scope := v'.scope.enter role name }
        { w' with scope := w'.scope.enter role name } :=
    fun h' => { h' with scope := congrArg (·.enter role name) h'.scope }
  refine hrecorded ?_
  cases role.act grammar name with
  | define qualified kind => exact h.define qualified kind range
  | use use =>
    have hannounced : (v.announce (use.suggestion? grammar name)).KnowsLess
        (w.announce (use.suggestion? grammar name)) := h.announce Use.suggestion?_ne_terminal
    exact hannounced.recordMeaning (hannounced.meaning grammar use name) name range

theorem visit (h : v.KnowsLess w) (o : Occurrence) :
    EndAlike Eq KnowsLess (v.visit o) (w.visit o) := by
  unfold View.visit
  rw [h.document, h.lines]
  cases o.name? with
  | none => exact .error rfl
  | some name =>
    cases v.lines.range? o.token.span with
    | none => exact .error rfl
    | some range => exact .ok (h.record o.grammar o.role name range)

/-- **The second view goes on knowing more**, over all occurrences. -/
theorem walk (h : v.KnowsLess w) (os : List Occurrence) :
    EndAlike Eq KnowsLess (v.walk os) (w.walk os) :=
  .foldlM (fun o _ h => h.visit o) h

end KnowsLess

end View

/-! ### Two analyses -/

/-- Where names have more kinds, the same fault is found, or an improved finding. -/
theorem findingOf_improves {kindOf kindOf' : String → Option Kind}
    (h : ∀ name kind, kindOf name = some kind → kindOf' name = some kind) (source : String)
    (d : DocumentId) (text : String) (tree : Tree) :
    EndAlike Eq Finding.Improves (findingOf source kindOf d text tree)
      (findingOf source kindOf' d text tree) :=
  ((View.KnowsLess.start h d text source).walk tree.occurrences).map fun h => h.improves

/-- **More knowledge never creates a diagnostic.**  After two histories such that every
kind of a name in the first is its kind in the second too, once the document is
forgotten, an analysis fails in both, with the same fault, or in neither.  Its
definitions are the same in both, and so are all mistakes but missing terminals and
missing symbols, in the same order.  Of these the second may have fewer, and none that
the first has not. -/
theorem gives_improves_of_kindNamed? (history₁ history₂ : List Registry.Event) (source : String)
    (d : DocumentId) (text : String) (tree : Tree)
    (hkinds : ∀ name kind, ((Registry.after history₁).forget d).kindNamed? name = some kind →
      ((Registry.after history₂).forget d).kindNamed? name = some kind) :
    ∃ less more : Except Fault Finding,
      Registry.Gives (analyze source (Registry.after history₁) d text tree) less ∧
        Registry.Gives (analyze source (Registry.after history₂) d text tree) more ∧
          EndAlike Eq Finding.Improves less more :=
  ⟨_, _, (Registry.wellFormed_after history₁).gives_analyze source d text tree,
    (Registry.wellFormed_after history₂).gives_analyze source d text tree,
    findingOf_improves hkinds source d text tree⟩

/-- Nobody has said anything, or the terminal `X` of the parent `B` is known.  In between,
the document has a grammar `B` of its own with an action `X`, so that the two passes
disagree about the kind of `B.X` for a while. -/
theorem gives_improves_of_kindNamed?_statedOnce :
    let r₁ := Registry.after []
    let r₂ := Registry.after statedOnce
    let tree : Tree := ⟨[
      ⟨⟨"A", ⟨0, 1⟩⟩, [⟨"B", ⟨2, 3⟩⟩], [],
        [.terminal ⟨"T", ⟨4, 5⟩⟩ (.reference ⟨"X", ⟨6, 7⟩⟩)], []⟩,
      ⟨⟨"B", ⟨9, 10⟩⟩, [], [], [], [⟨⟨"S", ⟨11, 12⟩⟩, [], .action ⟨"X", ⟨14, 15⟩⟩⟩]⟩]⟩
    let text := "A:B{T=X} B{S=@X}"
    (∀ name kind, (r₁.forget ⟨0⟩).kindNamed? name = some kind →
        (r₂.forget ⟨0⟩).kindNamed? name = some kind) ∧
      ∃ less more : Except Fault Finding,
        Registry.Gives (analyze "hime" r₁ ⟨0⟩ text tree) less ∧
          Registry.Gives (analyze "hime" r₂ ⟨0⟩ text tree) more ∧
            EndAlike Eq Finding.Improves less more := by
  intro r₁ r₂ tree text
  have hkinds : ∀ name kind, (r₁.forget ⟨0⟩).kindNamed? name = some kind →
      (r₂.forget ⟨0⟩).kindNamed? name = some kind := by
    intro name kind hkind
    have hnone : (r₁.forget ⟨0⟩).kindNamed? name = none := rfl
    rw [hnone] at hkind
    exact absurd hkind (by simp)
  exact ⟨hkinds, gives_improves_of_kindNamed? [] statedOnce "hime" ⟨0⟩ text tree hkinds⟩

end GrammarIndex
