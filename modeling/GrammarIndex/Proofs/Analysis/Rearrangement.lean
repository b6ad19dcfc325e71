import GrammarIndex.Proofs.Analysis.Resolution

/-!
# Occurrences in another order

Two passes may go over the same occurrences in different orders.  Most of what they record is
then merely in another order too.  The kinds of names are not: where two uses want to give a name
different kinds, whichever comes first settles it.  But a use never settles for a terminal, and
a look-up tells terminals from everything else and from nothing, and no more.

## Main definitions

* `Standing.Alike` — how one name may stand in the two passes.
* `Standing.Plain` — a change of a standing that makes no terminal.
* `Kind.ToldApart` — what a look-up can tell about kinds.
* `Scope.SameNames`, `View.Rearranged` — two passes that have come to the same in different orders.
* `Finding.Rearranged` — the same findings in another order.
* `View.Exchangeable` — occurrences any two of which can change places.

## Main results

* `Standing.Plain.comm` — **the order of two changes makes no visible difference.**
* `View.Rearranged.walk` — such passes go on alike.
* `View.rearranged_swap` — two occurrences that do not look at one another change places.
* `View.Exchangeable.exists_walk` — **exchangeable occurrences may come in any order.**
-/

namespace GrammarIndex

/-! ### One name -/

namespace Standing

/-- How one name may stand in two passes over the same occurrences. -/
inductive Alike : Standing → Standing → Prop
  /-- There is no difference. -/
  | same (s : Standing) : Alike s s
  /-- The document has stated different kinds, neither of them that of a terminal. -/
  | stated {kind kind' : Kind} (h : kind ≠ .terminal) (h' : kind' ≠ .terminal) :
    Alike ⟨some kind, true⟩ ⟨some kind', true⟩

/-- A change of a standing that makes no terminal. -/
inductive Plain : (Standing → Standing) → Prop
  /-- Nothing changes. -/
  | keep : Plain fun s => s
  /-- A definition. -/
  | settle {kind : Kind} (h : kind ≠ .terminal) : Plain (·.settle kind)
  /-- A use. -/
  | suggest {kind : Kind} (h : kind ≠ .terminal) : Plain (·.suggest kind)

variable {s t u : Standing}

theorem settle_of_own (h : s.own = true) (kind : Kind) : s.settle kind = s := if_pos h

theorem suggest_of_own (h : s.own = true) (kind : Kind) : s.suggest kind = s := by
  rw [suggest, settle_of_own h, ite_self]

theorem settle_of_not_own (h : s.own = false) (kind : Kind) : s.settle kind = ⟨some kind, true⟩ :=
  if_neg (by simp [h])

/-- A use that counts states its kind, and any other changes nothing. -/
theorem suggest_cases (h : s.own = false) (kind : Kind) :
    s.suggest kind = ⟨some kind, true⟩ ∨ s.suggest kind = s := by
  unfold suggest
  split
  · exact .inl (settle_of_not_own h kind)
  · exact .inr rfl

namespace Alike

theorem trans (h : s.Alike t) (h' : t.Alike u) : s.Alike u := by
  cases h with
  | same => exact h'
  | stated hs ht =>
    cases h' with
    | same => exact .stated hs ht
    | stated _ hu => exact .stated hs hu

theorem settle (h : s.Alike t) (kind : Kind) : (s.settle kind).Alike (t.settle kind) := by
  cases h with
  | same => exact .same _
  | stated hs ht => exact .stated hs ht

theorem suggest (h : s.Alike t) (kind : Kind) : (s.suggest kind).Alike (t.suggest kind) := by
  cases h with
  | same => exact .same _
  | stated hs ht =>
    rw [suggest_of_own rfl, suggest_of_own rfl]
    exact .stated hs ht

/-- An occurrence keeps standings alike. -/
theorem effect (h : s.Alike t) (role : Role) (grammar name n : String) :
    (role.effect grammar name n s).Alike (role.effect grammar name n t) := by
  unfold Role.effect
  split
  · split
    · exact h.settle _
    · exact h
  · split
    · split
      · exact h.suggest _
      · exact h
    · exact h

end Alike

namespace Plain

theorem ite {f : Standing → Standing} (h : Plain f) (c : Prop) [Decidable c] :
    Plain fun s => if c then f s else s := by
  by_cases hc : c
  · simp only [if_pos hc]
    exact h
  · simp only [if_neg hc]
    exact .keep

/-- A change leaves alone what the document has stated. -/
theorem of_own {f : Standing → Standing} (h : Plain f) (hs : s.own = true) : f s = s := by
  cases h with
  | keep => rfl
  | settle => exact settle_of_own hs _
  | suggest => exact suggest_of_own hs _

/-- A change states some kind, but not that of a terminal, or it changes nothing. -/
theorem cases_of_not_own {f : Standing → Standing} (h : Plain f) (hs : s.own = false) :
    (∃ kind, kind ≠ .terminal ∧ f s = ⟨some kind, true⟩) ∨ f s = s := by
  cases h with
  | keep => exact .inr rfl
  | settle hkind => exact .inl ⟨_, hkind, settle_of_not_own hs _⟩
  | suggest hkind => exact (suggest_cases hs _).imp_left fun h => ⟨_, hkind, h⟩

/-- **The order of two changes makes no visible difference.** -/
theorem comm {f f' : Standing → Standing} (h : Plain f) (h' : Plain f') (s : Standing) :
    (f' (f s)).Alike (f (f' s)) := by
  cases hs : s.own with
  | true =>
    rw [h.of_own hs, h'.of_own hs, h.of_own hs]
    exact .same s
  | false =>
    rcases h.cases_of_not_own hs with ⟨kind, hkind, hf⟩ | hf <;>
      rcases h'.cases_of_not_own hs with ⟨kind', hkind', hf'⟩ | hf'
    · -- whichever comes first sticks
      rw [hf, hf', h.of_own rfl, h'.of_own rfl]
      exact .stated hkind hkind'
    · rw [hf, hf', hf, h'.of_own rfl]
      exact .same _
    · rw [hf, hf', h.of_own rfl]
      exact .same _
    · rw [hf, hf', hf]
      exact .same s

end Plain

end Standing

/-- Nothing but the declaration of a terminal makes a terminal. -/
theorem Role.plain_effect {role : Role} (h : role ≠ .terminal) (grammar name n : String) :
    Standing.Plain (role.effect grammar name n) := by
  cases role with
  | terminal => exact absurd rfl h
  | use u =>
    cases u with
    | parent | action | virtual => exact .ite (.suggest (by decide)) _
    | _ => exact .keep
  | _ => exact .ite (.settle (by decide)) _

/-! ### What is looked up -/

/-- A look-up with this test tells terminals apart, but not the other kinds from one another. -/
def Kind.ToldApart (accepts : Kind → Bool) : Prop :=
  ∀ kind kind', kind ≠ .terminal → kind' ≠ .terminal → accepts kind = accepts kind'

/-- Nothing that is looked up tells standings apart that are alike. -/
theorem Standing.Alike.any_kind {s t : Standing} (h : s.Alike t) {accepts : Kind → Bool}
    (haccepts : Kind.ToldApart accepts) : s.kind.any accepts = t.kind.any accepts := by
  cases h with
  | same => rfl
  | stated hs ht => exact haccepts _ _ hs ht

namespace Scope

/-- The scopes have the same parents in the same order, and otherwise the same names in any. -/
structure SameNames (scope scope' : Scope) : Prop where
  /-- The parents are the same. -/
  imports : scope'.imports = scope.imports
  /-- The contexts are the same. -/
  contexts : ∀ name, name ∈ scope'.contexts ↔ name ∈ scope.contexts
  /-- The terminals are the same. -/
  terminals : ∀ name, name ∈ scope'.terminals ↔ name ∈ scope.terminals
  /-- The variables are the same. -/
  nonterminals : ∀ name, name ∈ scope'.nonterminals ↔ name ∈ scope.nonterminals

namespace SameNames

variable {scope scope' scope'' : Scope}

theorem refl (scope : Scope) : scope.SameNames scope :=
  ⟨rfl, fun _ => .rfl, fun _ => .rfl, fun _ => .rfl⟩

theorem trans (h : scope.SameNames scope') (h' : scope'.SameNames scope'') :
    scope.SameNames scope'' where
  imports := h'.imports.trans h.imports
  contexts name := (h'.contexts name).trans (h.contexts name)
  terminals name := (h'.terminals name).trans (h.terminals name)
  nonterminals name := (h'.nonterminals name).trans (h.nonterminals name)

theorem enter (h : scope.SameNames scope') (role : Role) (name : String) :
    (scope.enter role name).SameNames (scope'.enter role name) := by
  cases role with
  | grammar => exact .refl _
  | context => exact { h with contexts := fun n => by simp [Scope.enter, mem_addNew, h.contexts] }
  | terminal =>
    exact { h with terminals := fun n => by simp [Scope.enter, mem_addNew, h.terminals] }
  | nonterminal =>
    exact { h with nonterminals := fun n => by simp [Scope.enter, mem_addNew, h.nonterminals] }
  | parameter rule => exact h
  | use u =>
    cases u with
    | parent => exact { h with imports := congrArg (addNew · name) h.imports }
    | _ => exact h

end SameNames

/-- **A use means the same** in scopes with the same names, where look-ups in the parents come to
the same. -/
theorem SameNames.meaning_eq {scope scope' : Scope} (h : scope.SameNames scope')
    {kindOf kindOf' : String → Option Kind}
    (hkinds : ∀ accepts, Kind.ToldApart accepts → ∀ p ∈ scope.imports, ∀ name,
      (kindOf' (qualify p name)).any accepts = (kindOf (qualify p name)).any accepts)
    (grammar : String) (u : Use) (name : String) :
    scope'.meaning kindOf' grammar u name = scope.meaning kindOf grammar u name := by
  -- the parents are the same, and they are asked in the same order
  have himported : ∀ accepts, Kind.ToldApart accepts →
      scope'.importedName? kindOf' name accepts = scope.importedName? kindOf name accepts := by
    intro accepts haccepts
    rw [importedName?, importedName?, h.imports, ← List.head?_filter, ← List.head?_filter]
    refine congrArg List.head? (List.filter_congr fun q hq => ?_)
    obtain ⟨p, hp, rfl⟩ := List.mem_map.mp hq
    exact hkinds accepts haccepts p hp name
  have hterminal : Kind.ToldApart (· = .terminal) := by
    intro kind kind' hkind hkind'
    simp [hkind, hkind']
  have hany : Kind.ToldApart fun _ => true := fun _ _ _ _ => rfl
  cases u with
  | lexical owner => simp only [meaning, h.terminals, himported _ hterminal]
  | symbol rule parameters =>
    simp only [meaning, h.terminals, h.nonterminals, himported _ hany]
  | context => simp only [meaning, Meaning.ofLocal, h.contexts]
  | axiomValue => simp only [meaning, Meaning.ofLocal, h.nonterminals]
  | separatorValue => simp only [meaning, Meaning.ofLocal, h.terminals]
  | _ => rfl

end Scope

/-! ### Two passes -/

/-- The findings are the same, in another order. -/
structure Finding.Rearranged (f f' : Finding) : Prop where
  /-- The definitions are the same. -/
  definitions : f.definitions.Perm f'.definitions
  /-- The references are the same. -/
  references : f.references.Perm f'.references
  /-- The mistakes are the same. -/
  diagnostics : f.diagnostics.Perm f'.diagnostics

namespace View

/-- The two views have come to the same, in different orders. -/
structure Rearranged (v w : View) : Prop where
  /-- The document is the same. -/
  document : w.document = v.document
  /-- The lines are the same. -/
  lines : w.lines = v.lines
  /-- Both note mistakes for the same document. -/
  log_document : w.log.document = v.log.document
  /-- Both note mistakes under the same name. -/
  log_source : w.log.source = v.log.source
  /-- The current grammar declares the same names. -/
  scope : v.scope.SameNames w.scope
  /-- Every name stands alike. -/
  standing : ∀ n, (v.standing n).Alike (w.standing n)
  /-- What is found is the same. -/
  finding : v.finding.Rearranged w.finding

theorem document_record (v : View) (grammar : String) (role : Role) (name : String)
    (range : Range) : (v.record grammar role name range).document = v.document := by
  unfold record
  cases role.act grammar name with
  | define q kind => rfl
  | use u =>
    show (v.recordUse grammar u name range).document = v.document
    rw [recordUse]
    cases Scope.meaning _ _ _ _ _ <;> cases u.suggestion? grammar name <;> rfl

namespace Rearranged

variable {u v w : View}

theorem refl (v : View) : v.Rearranged v :=
  ⟨rfl, rfl, rfl, rfl, .refl _, fun _ => .same _, ⟨.refl _, .refl _, .refl _⟩⟩

theorem trans (h : u.Rearranged v) (h' : v.Rearranged w) : u.Rearranged w where
  document := h'.document.trans h.document
  lines := h'.lines.trans h.lines
  log_document := h'.log_document.trans h.log_document
  log_source := h'.log_source.trans h.log_source
  scope := h.scope.trans h'.scope
  standing n := (h.standing n).trans (h'.standing n)
  finding := ⟨h.finding.definitions.trans h'.finding.definitions,
    h.finding.references.trans h'.finding.references,
    h.finding.diagnostics.trans h'.finding.diagnostics⟩

/-- A use means the same in both. -/
theorem meaning?_eq (h : v.Rearranged w) (role : Role) (grammar name : String) :
    role.meaning? w.scope w.kindOf grammar name = role.meaning? v.scope v.kindOf grammar name := by
  cases role with
  | use u =>
    refine congrArg some (h.scope.meaning_eq (fun accepts haccepts p _ n => ?_) grammar u name)
    exact ((h.standing (qualify p n)).any_kind haccepts).symm
  | _ => rfl

/-- An occurrence that both go over. -/
theorem record (h : v.Rearranged w) (grammar : String) (role : Role) (name : String)
    (range : Range) :
    (v.record grammar role name range).Rearranged (w.record grammar role name range) where
  document := by rw [document_record, document_record, h.document]
  lines := by rw [lines_record, lines_record, h.lines]
  log_document := by rw [log_record, log_record]; exact h.log_document
  log_source := by rw [log_record, log_record]; exact h.log_source
  scope := by
    rw [scope_record, scope_record]
    exact h.scope.enter role name
  standing n := by
    rw [standing_record, standing_record]
    exact (h.standing n).effect role grammar name n
  finding := by
    refine ⟨?_, ?_, ?_⟩ <;> unfold View.finding
    · rw [definitions_record, definitions_record]
      exact h.finding.definitions.append_right _
    · rw [references_record, references_record, h.meaning?_eq]
      exact h.finding.references.append_right _
    · rw [log_record, log_record, h.meaning?_eq, h.log_document, h.log_source]
      exact h.finding.diagnostics.append_right _

theorem visit (h : v.Rearranged w) (o : Occurrence) :
    EndAlike Eq Rearranged (v.visit o) (w.visit o) := by
  unfold View.visit
  rw [h.document, h.lines]
  cases o.name? with
  | none => exact .error rfl
  | some name =>
    cases v.lines.range? o.token.span with
    | none => exact .error rfl
    | some range => exact .ok (h.record o.grammar o.role name range)

/-- **The two go on alike**, over occurrences in the same order. -/
theorem walk (h : v.Rearranged w) (os : List Occurrence) :
    EndAlike Eq Rearranged (v.walk os) (w.walk os) :=
  .foldlM (fun o _ h => h.visit o) h

theorem exists_walk (h : v.Rearranged w) {os : List Occurrence} {v' : View}
    (hv : v.walk os = .ok v') : ∃ w', w.walk os = .ok w' ∧ v'.Rearranged w' := by
  have hend := h.walk os
  rw [hv] at hend
  exact hend.exists_eq_ok

end Rearranged

/-! ### Occurrences that change places -/

/-- What comes last and what comes before it change places. -/
theorem perm_append_right_comm {α : Type} (xs ys zs : List α) :
    ((xs ++ ys) ++ zs).Perm ((xs ++ zs) ++ ys) := by
  rw [List.append_assoc, List.append_assoc]
  exact List.perm_append_comm.append_left xs

/-- **Two occurrences change places** where they enter names that do not depend on the order,
declare no terminals, and mean the same before and after the other. -/
theorem rearranged_swap {v : View} {o o' : Occurrence} {name name' : String} {range range' : Range}
    (hrole : o.role ≠ .terminal) (hrole' : o'.role ≠ .terminal)
    (hscope : ((v.scope.enter o.role name).enter o'.role name').SameNames
      ((v.scope.enter o'.role name').enter o.role name))
    (hmeaning : o.role.meaning? (v.record o'.grammar o'.role name' range').scope
        (v.record o'.grammar o'.role name' range').kindOf o.grammar name =
      o.role.meaning? v.scope v.kindOf o.grammar name)
    (hmeaning' : o'.role.meaning? (v.record o.grammar o.role name range).scope
        (v.record o.grammar o.role name range).kindOf o'.grammar name' =
      o'.role.meaning? v.scope v.kindOf o'.grammar name') :
    ((v.record o.grammar o.role name range).record o'.grammar o'.role name' range').Rearranged
      ((v.record o'.grammar o'.role name' range').record o.grammar o.role name range) := by
  constructor
  · simp only [document_record]
  · simp only [lines_record]
  · simp only [log_record]
  · simp only [log_record]
  · simp only [scope_record]
    exact hscope
  · -- effects that are plain come in either order
    intro n
    simp only [standing_record]
    exact (Role.plain_effect hrole _ _ n).comm (Role.plain_effect hrole' _ _ n) _
  · -- one and the other, or the other and the one
    refine ⟨?_, ?_, ?_⟩ <;> unfold finding
    · simp only [definitions_record]
      exact perm_append_right_comm _ _ _
    · rw [references_record, references_record, hmeaning', references_record, references_record,
        hmeaning]
      exact perm_append_right_comm _ _ _
    · rw [log_record, log_record, hmeaning', log_record, log_record, hmeaning]
      exact perm_append_right_comm _ _ _

/-- Any two of the occurrences can change places, wherever the views have a property that all of
the occurrences keep. -/
structure Exchangeable (P : View → Prop) (os : List Occurrence) : Prop where
  /-- An occurrence keeps the property. -/
  record : ∀ {v}, P v → ∀ o ∈ os, ∀ name range, P (v.record o.grammar o.role name range)
  /-- Two occurrences change places. -/
  swap : ∀ {v}, P v → ∀ o ∈ os, ∀ o' ∈ os, ∀ name range name' range',
    ((v.record o.grammar o.role name range).record o'.grammar o'.role name' range').Rearranged
      ((v.record o'.grammar o'.role name' range').record o.grammar o.role name range)

namespace Exchangeable

variable {P : View → Prop} {os os' : List Occurrence}

theorem mono (h : Exchangeable P os) (hsub : os' ⊆ os) : Exchangeable P os' where
  record hv o ho := h.record hv o (hsub ho)
  swap hv o ho o' ho' := h.swap hv o (hsub ho) o' (hsub ho')

/-- **Exchangeable occurrences may come in any order.** -/
theorem exists_walk (h : Exchangeable P os) (hperm : os.Perm os') {v w : View} (hv : P v)
    (hw : v.walk os = .ok w) : ∃ w', v.walk os' = .ok w' ∧ w.Rearranged w' := by
  -- by induction on how the occurrences were put in another order
  induction hperm generalizing v w with
  | nil => exact ⟨w, hw, .refl w⟩
  | cons o _ ih =>
    obtain ⟨name, range, hname, hrange, hrest⟩ := exists_of_walk_cons hw
    obtain ⟨w', hw', hrearranged⟩ := ih (h.mono (List.subset_cons_self _ _))
      (h.record hv o List.mem_cons_self name range) hrest
    refine ⟨w', ?_, hrearranged⟩
    rw [walk_cons, visit, hname]
    simp only [hrange]
    exact hw'
  -- two neighbours change places; neither changes what the other means
  | swap o o' rest =>
    obtain ⟨name', range', hname', hrange', hrest'⟩ := exists_of_walk_cons hw
    obtain ⟨name, range, hname, hrange, hrest⟩ := exists_of_walk_cons hrest'
    rw [lines_record] at hrange
    have hswapped := h.swap hv o' List.mem_cons_self o (by simp) name' range' name range
    obtain ⟨w', hw', hrearranged⟩ := hswapped.exists_walk hrest
    refine ⟨w', ?_, hrearranged⟩
    rw [walk_cons, visit, hname]
    simp only [hrange, Except.bind]
    rw [walk_cons, visit, hname', lines_record]
    simp only [hrange']
    exact hw'
  | trans hfirst _ ih ih' =>
    obtain ⟨w', hw', hrearranged⟩ := ih h hv hw
    obtain ⟨w'', hw'', hrearranged'⟩ := ih' (h.mono fun _ ho => hfirst.mem_iff.mpr ho) hv hw'
    exact ⟨w'', hw'', hrearranged.trans hrearranged'⟩

end Exchangeable

end View

end GrammarIndex
