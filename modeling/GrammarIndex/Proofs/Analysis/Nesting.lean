import GrammarIndex.Proofs.Analysis.Stating

/-!
# Parents mirror names

A symbol is known by the name of the scope that owns it, a dot, and its own name; its parent
is known by a handle.  Nobody compares the two.  They agree nevertheless: whoever states a
parent has just made up the name from that of the parent.  So the names on the way up from a
symbol get shorter, and the way up ends.

## Main definitions

* `Registry.Mirrors` — the parent that a statement gives a name is what comes before a dot of
  the name.
* `Registry.Mirroring` — the same of a name, told before the parent has become a handle.
* `Registry.ancestor?` — the symbol so many steps up from a symbol.

## Main results

* `Registry.nested_of_isWhole` — every statement mirrors the name that it is about.
* `Registry.nested_after` — **parents mirror names after every history of analyses.**
* `Registry.Nested.ancestor?_eq_none`, `Registry.Nested.ancestor?_ne` — the way up ends, and
  comes to no symbol twice.
-/

namespace GrammarIndex

namespace Registry

/-! ### Statements that mirror names -/

/-- The statement about a symbol of this name mirrors the name: the name is that of the
parent, a dot, and some more; and only a grammar has no parent. -/
def Mirrors (r : Registry) (name : String) (st : Statement) : Prop :=
  match st.parent with
  | some i => ∃ s, r.symbol? i = some s ∧ ∃ own, name = qualify s.qualifiedName own
  | none => st.kind = .grammar

/-- Every statement mirrors the name that it is about. -/
def Nested (r : Registry) : Prop := r.EveryStatement r.Mirrors

/-- The name is made up from that of its owner, and only a grammar has none. -/
def Mirroring (name : String) (kind : Kind) (owner : Option String) : Prop :=
  match owner with
  | some scope => ∃ own, name = qualify scope own
  | none => kind = .grammar

variable {r : Registry}

theorem Told.nested (h : r.Told Mirroring) : r.Nested := by
  refine EveryStatement.mono h fun {name st} htells => ?_
  obtain ⟨kind, parent⟩ := st
  cases parent <;> exact htells

theorem nested_of_isWhole {history : List Event} (h : ∀ event ∈ history, event.isWhole = true) :
    (after history).Nested := by
  refine Told.nested (told_after h fun event _ tree _ o _ name kind owner hsaid => ?_)
  obtain ⟨own, -, hname⟩ := hsaid.name_eq
  have hgrammar := hsaid.grammar
  rw [← hsaid.owner_eq] at hname hgrammar
  cases owner with
  | none => exact hgrammar rfl
  | some scope => exact ⟨own, hname⟩

/-! ### The way up -/

/-- The symbol so many steps up from a symbol. -/
def ancestor? (r : Registry) (i : SymbolId) : Nat → Option SymbolId
  | 0 => some i
  | n + 1 => ((r.ancestor? i n).bind r.symbol?).bind (·.parent?)

theorem ancestor?_add (r : Registry) (i : SymbolId) (m n : Nat) :
    r.ancestor? i (m + n) = (r.ancestor? i m).bind fun j => r.ancestor? j n := by
  induction n with
  | zero => simp [ancestor?]
  | succ n ih =>
    rw [← Nat.add_assoc, ancestor?, ih]
    cases r.ancestor? i m <;> rfl

/-- A parent has a shorter name than its child. -/
theorem Nested.length_lt_of_parent? (h : r.Nested) {i j : SymbolId} {s : Symbol}
    (hs : r.symbol? i = some s) (hparent : s.parent? = some j) :
    ∃ t, r.symbol? j = some t ∧ t.qualifiedName.length < s.qualifiedName.length := by
  obtain ⟨⟨kind, parent⟩, hst, hj⟩ := Option.bind_eq_some_iff.mp hparent
  have hmirrors := EveryStatement.of_effective? h hs hst
  obtain rfl : parent = some j := hj
  obtain ⟨t, ht, own, hname⟩ := hmirrors
  refine ⟨t, ht, ?_⟩
  rw [hname, ← String.length_toList, ← String.length_toList, toList_qualify]
  simp

/-- Every step up makes the name shorter. -/
theorem Nested.length_of_ancestor? (h : r.Nested) {i : SymbolId} {s : Symbol}
    (hs : r.symbol? i = some s) {n : Nat} {j : SymbolId} (hj : r.ancestor? i n = some j) :
    ∃ t, r.symbol? j = some t ∧ t.qualifiedName.length + n ≤ s.qualifiedName.length := by
  induction n generalizing j with
  | zero => exact ⟨s, Option.some.inj hj ▸ hs, Nat.le_refl _⟩
  | succ n ih =>
    obtain ⟨u, hu, hparent⟩ := Option.bind_eq_some_iff.mp hj
    obtain ⟨k, hk, hu⟩ := Option.bind_eq_some_iff.mp hu
    obtain ⟨u', hu', hlength⟩ := ih hk
    obtain rfl : u = u' := Option.some.inj (hu.symm.trans hu')
    obtain ⟨t, ht, hshorter⟩ := h.length_lt_of_parent? hu hparent
    exact ⟨t, ht, by omega⟩

/-- **The way up from a symbol ends**, at the latest after as many steps as its name has
characters, and one more. -/
theorem Nested.ancestor?_eq_none (h : r.Nested) {i : SymbolId} {s : Symbol}
    (hs : r.symbol? i = some s) : r.ancestor? i (s.qualifiedName.length + 1) = none := by
  refine Option.eq_none_iff_forall_ne_some.mpr fun j hj => ?_
  obtain ⟨t, -, hlength⟩ := h.length_of_ancestor? hs hj
  omega

/-- **The way up comes to no symbol twice.** -/
theorem Nested.ancestor?_ne (h : r.Nested) {i j : SymbolId} {s : Symbol}
    (hs : r.symbol? i = some s) {m n : Nat} (hlt : m < n) (hm : r.ancestor? i m = some j) :
    r.ancestor? i n ≠ some j := by
  intro hn
  obtain ⟨t, ht, -⟩ := h.length_of_ancestor? hs hm
  have hagain : r.ancestor? j (n - m) = some j := by
    rw [← Nat.add_sub_of_le (Nat.le_of_lt hlt), ancestor?_add, hm] at hn
    exact hn
  obtain ⟨t', ht', hlength⟩ := h.length_of_ancestor? ht hagain
  rw [Option.some.inj (ht.symm.trans ht')] at hlength
  omega

/-- **Parents mirror names.**  After every history in which documents are analysed, with
whatever outcome, and forgotten: a statement about a symbol that gives a parent gives a symbol
of the registry, whose name with a dot and some more is the name of the symbol; one that gives
none is about a grammar; and from every symbol the way up to its ancestors ends, and comes to
none of them twice. -/
theorem nested_after {history : List Event} (h : ∀ event ∈ history, event.isWhole = true) :
    let r := after history
    ∀ i s, r.symbol? i = some s →
      (∀ d st, (d, st) ∈ s.statements.entries →
        (∀ j, st.parent = some j →
          ∃ t, r.symbol? j = some t ∧ ∃ own, s.qualifiedName = qualify t.qualifiedName own) ∧
        (st.parent = none → st.kind = .grammar)) ∧
      (∃ n, r.ancestor? i n = none) ∧
      ∀ m n j, m < n → r.ancestor? i m = some j → r.ancestor? i n ≠ some j := by
  intro r i s hs
  have hnested : r.Nested := nested_of_isWhole h
  -- the way up ends, for the names on it get shorter with each step
  refine ⟨fun d st hst => ?_, ⟨_, hnested.ancestor?_eq_none hs⟩, fun m n j hlt hm =>
    hnested.ancestor?_ne hs hlt hm⟩
  have hmirrors : r.Mirrors s.qualifiedName st := hnested i s hs (d, st) hst
  obtain ⟨kind, parent⟩ := st
  cases parent with
  | none => exact ⟨fun j hj => absurd hj (by simp), fun _ => hmirrors⟩
  | some j => exact ⟨fun j' hj' => Option.some.inj hj' ▸ hmirrors, fun hj => absurd hj (by simp)⟩

/-- A grammar `G` with a template `S` that has a parameter `P`; then a version of it of which
the text is too short, another document in which `G` is a parent, and the first one forgotten. -/
def templateForgotten : List Event :=
  let g : Grammar :=
    ⟨⟨"G", ⟨0, 1⟩⟩, [], [], [], [⟨⟨"S", ⟨2, 3⟩⟩, [⟨"P", ⟨4, 5⟩⟩], .name ⟨"P", ⟨7, 8⟩⟩⟩]⟩
  [.analysis "hime" ⟨0⟩ "G{S<P>P}" (.ok ⟨[g]⟩), .analysis "hime" ⟨0⟩ "G" (.ok ⟨[g]⟩),
    .analysis "hime" ⟨1⟩ "H:G{}" (.ok ⟨[⟨⟨"H", ⟨0, 1⟩⟩, [⟨"G", ⟨2, 3⟩⟩], [], [], []⟩]⟩),
    .operation (.forget ⟨0⟩), .analysis "hime" ⟨0⟩ "G{S<P>P}" (.ok ⟨[g]⟩)]

/-- The parameter `G.S.P` has a statement, and a way up over `G.S` to `G`. -/
theorem nested_after_templateForgotten :
    let r := after templateForgotten
    (∀ event ∈ templateForgotten, event.isWhole = true) ∧
      ∃ s, r.symbol? ⟨2⟩ = some s ∧ s.qualifiedName = "G.S.P" ∧ s.statements.entries ≠ [] ∧
        (∀ d st, (d, st) ∈ s.statements.entries →
          (∀ j, st.parent = some j →
            ∃ t, r.symbol? j = some t ∧ ∃ own, s.qualifiedName = qualify t.qualifiedName own) ∧
          (st.parent = none → st.kind = .grammar)) ∧
        (∃ n, r.ancestor? ⟨2⟩ n = none) ∧
        ∀ m n j, m < n → r.ancestor? ⟨2⟩ m = some j → r.ancestor? ⟨2⟩ n ≠ some j := by
  intro r
  have hwhole : ∀ event ∈ templateForgotten, event.isWhole = true := by
    simp [templateForgotten, Event.isWhole]
  have hsymbol : (r.symbol? ⟨2⟩).any (fun s => s.qualifiedName = "G.S.P" ∧
      s.statements.entries ≠ []) = true := by decide +kernel
  obtain ⟨s, hs, hfacts⟩ := (Option.any_eq_true _ _).mp hsymbol
  obtain ⟨hname, hstatements⟩ := of_decide_eq_true hfacts
  exact ⟨hwhole, s, hs, hname, hstatements, nested_after hwhole ⟨2⟩ s hs⟩

end Registry

end GrammarIndex
