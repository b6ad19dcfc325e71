import GrammarIndex.Proofs.Analysis.Homes
import GrammarIndex.Proofs.Grammar.Anchors

/-!
# Kinds of what is recorded

A use is recorded where its name is at home: among the names that the scope holds, which
were declared before and have kinds, or in a parent that knows the name with a kind.  Only
the parameters of a rule are in no scope.  They come with the use itself, and they are
declared somewhere in the tree, so that in the end they have kinds too.

## Main definitions

* `View.Stated` — whatever the document has stated a kind for has a kind.
* `View.Known` — what is known of kinds on the way.

## Main results

* `View.Known.walk` — kinds are known all along a walk.
* `View.exists_declared_of_walk` — whatever is declared is recorded in its scope.
* `View.isSome_kindOf_of_mem_mentions` — **whatever is recorded has a kind in the end**,
  mistakes or not.
-/

namespace GrammarIndex

namespace View

/-! ### Whatever is stated -/

/-- Whatever the document has stated a kind for has a kind. -/
def Stated (v : View) : Prop := ∀ n, (v.standing n).own = true → (v.kindOf n).isSome = true

theorem stated_start {kindOf : String → Option Kind} {d : DocumentId} {text source : String} :
    (View.start kindOf d text source).Stated :=
  fun _ hown => absurd hown (by simp [View.start, Standing.ofOthers])

end View

theorem Standing.isSome_kind_settle_self {s : Standing} (h : s.own = true → s.kind.isSome = true)
    (kind : Kind) : (s.settle kind).kind.isSome = true := by
  unfold settle
  split
  · next hown => exact h hown
  · rfl

theorem Standing.isSome_kind_suggest_self {s : Standing}
    (h : s.own = true → s.kind.isSome = true) (kind : Kind) :
    (s.suggest kind).kind.isSome = true := by
  unfold suggest
  split
  · exact isSome_kind_settle_self h kind
  · next hrefused =>
    -- a use is refused only where another kind is known
    cases hkind : s.kind with
    | none => rw [hkind] at hrefused; exact absurd rfl hrefused
    | some kind' => rfl

namespace Role

variable {role : Role} {grammar name n : String} {s : Standing}

/-- An occurrence takes no kind away. -/
theorem isSome_kind_effect (h : s.kind.isSome = true) :
    (role.effect grammar name n s).kind.isSome = true := by
  rcases role.effect_cases grammar name n s with heffect | ⟨kind, heffect | heffect⟩ <;>
    rw [heffect]
  · exact h
  · exact Standing.isSome_kind_settle h kind
  · exact Standing.isSome_kind_suggest h kind

/-- An occurrence states no kind without giving one. -/
theorem isSome_kind_effect_of_own (h : s.own = true → s.kind.isSome = true)
    (hown : (role.effect grammar name n s).own = true) :
    (role.effect grammar name n s).kind.isSome = true := by
  rcases role.effect_cases grammar name n s with heffect | ⟨kind, heffect | heffect⟩ <;>
    rw [heffect] at hown ⊢
  · exact h hown
  · exact Standing.isSome_kind_settle_self h kind
  · exact Standing.isSome_kind_suggest_self h kind

end Role

namespace View

variable {v w : View} {grammar name : String} {role : Role} {home : List String} {range : Range}
  {n : String}

theorem kindOf_record :
    (v.record grammar role name range).kindOf n =
      (role.effect grammar name n (v.standing n)).kind :=
  congrArg Standing.kind (v.standing_record grammar role name range n)

theorem isSome_kindOf_record (h : (v.kindOf n).isSome = true) :
    ((v.record grammar role name range).kindOf n).isSome = true := by
  rw [kindOf_record]
  exact Role.isSome_kind_effect h

/-- A kind is not lost on the way. -/
theorem isSome_kindOf_of_walk {os : List Occurrence} (hwalk : v.walk os = .ok w)
    (h : (v.kindOf n).isSome = true) : (w.kindOf n).isSome = true := by
  induction os generalizing v with
  | nil =>
    rw [Except.ok.inj hwalk] at h
    exact h
  | cons o os ih =>
    obtain ⟨name, range, -, -, hrest⟩ := exists_of_walk_cons hwalk
    exact ih hrest (isSome_kindOf_record h)

namespace Stated

theorem record (h : v.Stated) : (v.record grammar role name range).Stated := by
  intro n
  rw [kindOf_record, standing_record]
  exact Role.isSome_kind_effect_of_own (h n)

/-- Whatever is declared has a kind. -/
theorem isSome_of_declaredIn? (h : v.Stated) (hdeclared : role.declaredIn? grammar = some home) :
    ((v.record grammar role name range).kindOf (joinPath (home ++ [name]))).isSome = true := by
  obtain ⟨kind, -, hact⟩ := exists_act_eq hdeclared name
  rw [kindOf_record, Role.effect, hact]
  simp only [if_pos]
  exact Standing.isSome_kind_settle_self (h _) kind

/-- Whatever a use declares by itself has a kind. -/
theorem isSome_of_suggestion? (h : v.Stated) {u : Use} {kind : Kind}
    (hsuggested : u.suggestion? grammar name = some (n, kind)) :
    ((v.record grammar (.use u) name range).kindOf n).isSome = true := by
  rw [kindOf_record, Role.effect]
  simp only [Role.act, hsuggested, if_pos]
  exact Standing.isSome_kind_suggest_self (h n) kind

end Stated

/-! ### Whatever is recorded -/

/-- What is known of kinds while the grammar `g` is walked: its names have kinds, and so does
whatever was recorded, unless it is `declared` further down. -/
structure Known (g : String) (declared : String → Prop) (v : View) : Prop where
  /-- Whatever was stated has a kind. -/
  stated : v.Stated
  /-- The contexts of the grammar have kinds. -/
  contexts : ∀ a ∈ v.scope.contexts, (v.kindOf (qualify g a)).isSome = true
  /-- The terminals of the grammar have kinds. -/
  terminals : ∀ a ∈ v.scope.terminals, (v.kindOf (qualify g a)).isSome = true
  /-- The variables of the grammar have kinds. -/
  nonterminals : ∀ a ∈ v.scope.nonterminals, (v.kindOf (qualify g a)).isSome = true
  /-- Whatever was recorded has a kind, or is declared further down. -/
  mentions : ∀ m ∈ v.mentions, (v.kindOf m.name).isSome = true ∨ declared m.name

namespace Known

variable {g : String} {declared : String → Prop}

theorem isSome_importer {scope : Scope} {kindOf : String → Option Kind} {p : String}
    {accepts : Kind → Bool} (h : scope.importer? kindOf name accepts = some p) :
    (kindOf (qualify p name)).isSome = true := by
  have haccepts : (kindOf (qualify p name)).any accepts = true :=
    List.find?_some (p := fun p => (kindOf (qualify p name)).any accepts) h
  obtain ⟨kind, hkind, -⟩ := (Option.any_eq_true _ _).mp haccepts
  exact Option.isSome_iff_exists.mpr ⟨kind, hkind⟩

/-- A name at home has a kind once it is recorded, unless it is a parameter. -/
theorem isSome_home (h : v.Known grammar declared) (hhome : v.AtHome grammar role name home)
    (hparameters : ∀ a ∈ role.anchors, ∀ rule, a.1 = .parameter rule →
      declared (joinPath [grammar, rule, a.2])) :
    ((v.record grammar role name range).kindOf (joinPath (home ++ [name]))).isSome = true ∨
      declared (joinPath (home ++ [name])) := by
  have hkept : ∀ {n}, (v.kindOf n).isSome = true →
      ((v.record grammar role name range).kindOf n).isSome = true ∨ declared n :=
    fun hn => .inl (isSome_kindOf_record hn)
  -- what is declared has a kind by now; a use stands for what was declared or for an import
  cases role with
  | use u =>
    cases hhome with
    | parent => exact .inl (h.stated.isSome_of_suggestion? rfl)
    | action => exact .inl (h.stated.isSome_of_suggestion? rfl)
    | virtual => exact .inl (h.stated.isSome_of_suggestion? rfl)
    | context hname => exact hkept (h.contexts name hname)
    | axiomValue hname => exact hkept (h.nonterminals name hname)
    | separatorValue hname => exact hkept (h.terminals name hname)
    | lexicalTerminal _ hname => exact hkept (h.terminals name hname)
    | lexicalImport _ _ hp => exact hkept (isSome_importer hp)
    -- a parameter may still be declared further down, with its own rule
    | parameter hname =>
      refine .inr (hparameters (.parameter _, name) ?_ _ rfl)
      exact List.mem_cons_of_mem _ (List.mem_map_of_mem hname)
    | terminal _ hname => exact hkept (h.terminals name hname)
    | nonterminal _ _ hname => exact hkept (h.nonterminals name hname)
    | «import» _ _ _ hp => exact hkept (isSome_importer hp)
  | _ => exact .inl (h.stated.isSome_of_declaredIn? hhome)

/-- Kinds are known after one more occurrence. -/
theorem record (h : v.Known g declared) (hgrammar : role ≠ .grammar → grammar = g)
    (hhome : v.AtHome grammar role name home)
    (hparameters : ∀ a ∈ role.anchors, ∀ rule, a.1 = .parameter rule →
      declared (joinPath [grammar, rule, a.2])) :
    (v.record grammar role name range).Known grammar declared := by
  have hscope : (v.record grammar role name range).scope = v.scope.enter role name :=
    v.scope_record grammar role name range
  have hnew :
      ((v.record grammar role name range).kindOf (joinPath (home ++ [name]))).isSome = true ∨
      declared (joinPath (home ++ [name])) := by
    by_cases hrole : role = .grammar
    · subst hrole
      exact .inl (h.stated.isSome_of_declaredIn? hhome)
    · obtain rfl := hgrammar hrole
      exact h.isSome_home hhome hparameters
  have hmentions : ∀ m ∈ (v.record grammar role name range).mentions,
      ((v.record grammar role name range).kindOf m.name).isSome = true ∨ declared m.name := by
    intro m hm
    rcases hhome.mem_mentions_record.mp hm with hm | rfl
    · exact (h.mentions m hm).imp_left isSome_kindOf_record
    · exact hnew
  -- what the grammar has declared by now, it declares still, with whatever was declared last
  have hnames : ∀ {names : List String}, (role ≠ .grammar → ∀ a ∈ names,
      (v.kindOf (qualify g a)).isSome = true ∨
        role.declaredIn? grammar = some [grammar] ∧ a = name) →
        role ≠ .grammar → ∀ a ∈ names,
          ((v.record grammar role name range).kindOf (qualify grammar a)).isSome = true := by
    intro names hold hrole a ha
    rcases hold hrole a ha with hkind | ⟨hdeclared, rfl⟩
    · rw [hgrammar hrole]
      exact isSome_kindOf_record hkind
    · exact h.stated.isSome_of_declaredIn? hdeclared
  -- scope by scope; the name of a grammar empties all of them
  refine ⟨h.stated.record, ?_, ?_, ?_, hmentions⟩ <;> rw [hscope] <;>
    by_cases hrole : role = .grammar
  · rw [hrole]
    exact fun a ha => absurd ha List.not_mem_nil
  · refine hnames (fun _ a ha => ?_) hrole
    rcases Scope.mem_namesOf_enter .context ha with ha | ⟨rfl, rfl⟩
    · exact .inl (h.contexts a ha)
    · exact .inr ⟨rfl, rfl⟩
  · rw [hrole]
    exact fun a ha => absurd ha List.not_mem_nil
  · refine hnames (fun _ a ha => ?_) hrole
    rcases Scope.mem_namesOf_enter .terminal ha with ha | ⟨rfl, rfl⟩
    · exact .inl (h.terminals a ha)
    · exact .inr ⟨rfl, rfl⟩
  · rw [hrole]
    exact fun a ha => absurd ha List.not_mem_nil
  · refine hnames (fun _ a ha => ?_) hrole
    rcases Scope.mem_namesOf_enter .nonterminal ha with ha | ⟨rfl, rfl⟩
    · exact .inl (h.nonterminals a ha)
    · exact .inr ⟨rfl, rfl⟩

/-- A mistake changes nothing about kinds. -/
theorem note (h : v.Known g declared) (log : DiagnosticLog) :
    ({ v with log := log } : View).Known g declared :=
  ⟨h.stated, h.contexts, h.terminals, h.nonterminals, h.mentions⟩

end Known

/-- **Kinds are known all along a walk.** -/
theorem Known.walk {os : List Occurrence} {g : String} {declared : String → Prop}
    (h : v.Known g declared) (hwalk : v.walk os = .ok w) (hcontinues : Continues g os)
    (hparameters : ∀ o ∈ os, ∀ a ∈ o.role.anchors, ∀ rule, a.1 = .parameter rule →
      declared (joinPath [o.grammar, rule, a.2])) : ∃ g', w.Known g' declared := by
  induction os generalizing v g with
  | nil => exact ⟨g, Except.ok.inj hwalk ▸ h⟩
  | cons o os ih =>
    obtain ⟨name, range, -, -, hrest⟩ := exists_of_walk_cons hwalk
    refine ih ?_ hrest hcontinues.2 fun o' ho' => hparameters o' (List.mem_cons_of_mem _ ho')
    rcases v.exists_atHome_or_noted o.grammar o.role name range with
      ⟨home, hhome⟩ | ⟨⟨u, hrole⟩, m, hnoted⟩
    · exact h.record hcontinues.1 hhome (hparameters o List.mem_cons_self)
    · rw [hnoted, hcontinues.1 (by simp [hrole])]
      exact h.note _

/-- Whatever is declared on the way is recorded in its scope, and has a kind in the end. -/
theorem exists_declared_of_walk {os : List Occurrence} (hwalk : v.walk os = .ok w)
    (h : v.Stated) :
    ∀ o ∈ os, ∀ home, o.role.declaredIn? o.grammar = some home →
      ∃ range, v.lines.range? o.token.span = some range ∧
        ⟨joinPath (home ++ [o.token.text]), range⟩ ∈ w.mentions ∧
          (w.kindOf (joinPath (home ++ [o.token.text]))).isSome = true := by
  induction os generalizing v with
  | nil => exact fun o ho => absurd ho List.not_mem_nil
  | cons o os ih =>
    obtain ⟨name, range, hname, hrange, hrest⟩ := exists_of_walk_cons hwalk
    intro o' ho' home' hdeclared
    rcases List.mem_cons.mp ho' with rfl | ho'
    · -- a name that is declared is written as it stands
      have htext : name = o'.token.text := by
        rw [Occurrence.name?_of_not_isLiteral (Role.isLiteral_of_declaredIn? hdeclared)] at hname
        exact (Option.some.inj hname).symm
      subst htext
      have hrecorded := v.atHome_of_declaredIn? hdeclared o'.token.text
      -- what is recorded stays recorded, and a name with a kind keeps having one
      refine ⟨range, hrange, ?_, ?_⟩
      · exact mentions_subset_of_walk hrest (hrecorded.mem_mentions_record.mpr (.inr rfl))
      · exact isSome_kindOf_of_walk hrest (h.isSome_of_declaredIn? hdeclared)
    · obtain ⟨range', hrange', hrecord⟩ := ih hrest h.record o' ho' home' hdeclared
      rw [lines_record] at hrange'
      exact ⟨range', hrange', hrecord⟩

/-- **Whatever a document records has a kind in the end**, mistakes or not. -/
theorem isSome_kindOf_of_mem_mentions {kindOf : String → Option Kind} {d : DocumentId}
    {text source : String} {tree : Tree}
    (hwalk : (View.start kindOf d text source).walk tree.occurrences = .ok w) :
    ∀ m ∈ w.mentions, (w.kindOf m.name).isSome = true := by
  -- a parameter may be used ahead of its own declaration, and so declarations are collected first
  let declared := fun n => ∃ o ∈ tree.occurrences, ∃ home,
    o.role.declaredIn? o.grammar = some home ∧ n = joinPath (home ++ [o.token.text])
  have hstated : (View.start kindOf d text source).Stated := stated_start
  have hstart : (View.start kindOf d text source).Known "" declared :=
    ⟨hstated, by simp [View.start, Scope.empty], by simp [View.start, Scope.empty],
      by simp [View.start, Scope.empty], by simp [View.start, View.mentions]⟩
  have hparameters : ∀ o ∈ tree.occurrences, ∀ a ∈ o.role.anchors, ∀ rule,
      a.1 = .parameter rule → declared (joinPath [o.grammar, rule, a.2]) := by
    intro o ho a ha rule hrule
    obtain ⟨o', ho', hgrammar, hrole, htext⟩ := tree.exists_anchor ho a ha
    refine ⟨o', ho', [o.grammar, rule], ?_, ?_⟩
    · rw [hrole, hrule, hgrammar]
      rfl
    · rw [htext]
      rfl
  obtain ⟨g, hknown⟩ := hstart.walk hwalk (tree.continues_occurrences "") hparameters
  intro m hm
  -- what had no kind when it was mentioned is declared somewhere in the tree
  rcases hknown.mentions m hm with hkind | ⟨o, ho, home, hdeclared, hname⟩
  · exact hkind
  · obtain ⟨range, -, -, hkind⟩ := exists_declared_of_walk hwalk hstated o ho home hdeclared
    rw [hname]
    exact hkind

theorem Clean.isSome_kindOf {kindOf : String → Option Kind} {d : DocumentId}
    {text source : String} {tree : Tree}
    (hclean : (View.start kindOf d text source).Clean tree.occurrences w) :
    ∀ m ∈ w.mentions, (w.kindOf m.name).isSome = true :=
  isSome_kindOf_of_mem_mentions hclean.walk

end View

end GrammarIndex
