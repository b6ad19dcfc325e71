import GrammarIndex.Proofs.Analysis.Reanalysis
import GrammarIndex.Proofs.Grammar.Checks
import GrammarIndex.Proofs.Text.Literal

/-!
# When an analysis fails

An analysis fails where the tree does not fit the text: where a token that names something ends
after the text, or where a literal that stands for a name is not quoted.  It goes over the checks
of the tree in order and stops at the first that fails.  What names stand for makes no
difference.

## Main definitions

* `Check.Passes`, `Check.Fails` — a check in a text, and the fault where it fails.
* `FirstFails` — the fault of the first check that fails.

## Main results

* `Pass.visit_cases` — a visit is its check.
* `Pass.exists_walk_eq_error_iff` — a walk stops at the first check that fails.
* `analyze_eq_error_iff` — **an analysis fails where a check does, with the fault of the
  first.**
-/

namespace GrammarIndex

/-! ### Checks in a text -/

namespace Check

/-- The check passes in this text: the token ends within it, and a literal is quoted. -/
def Passes (text : String) : Check → Prop
  | name t => t.span.stop ≤ text.utf8ByteSize
  | literal t => IsQuoted t.text ∧ t.span.stop ≤ text.utf8ByteSize

/-- The check fails in the text of this document, with a fault. -/
inductive Fails (d : DocumentId) (text : String) : Check → Fault → Prop
  /-- A name ends after the text. -/
  | name {t : Token} (h : text.utf8ByteSize < t.span.stop) :
    Fails d text (.name t) (.spanOutOfBounds d t.span text.utf8ByteSize)
  /-- A literal is not quoted, wherever it ends. -/
  | unquoted {t : Token} (h : ¬ IsQuoted t.text) :
    Fails d text (.literal t) (.malformedLiteral d t.text t.span)
  /-- A literal is quoted, but ends after the text. -/
  | literal {t : Token} (hquoted : IsQuoted t.text) (h : text.utf8ByteSize < t.span.stop) :
    Fails d text (.literal t) (.spanOutOfBounds d t.span text.utf8ByteSize)

/-- A check fails where it does not pass. -/
theorem exists_fails_iff {d : DocumentId} {text : String} {c : Check} :
    (∃ fault, c.Fails d text fault) ↔ ¬ c.Passes text := by
  constructor
  · rintro ⟨fault, h⟩
    cases h with
    | name h => exact Nat.not_le.mpr h
    | unquoted h => exact fun hpasses => h hpasses.1
    | literal hquoted h => exact fun hpasses => Nat.not_le.mpr h hpasses.2
  · intro h
    cases c with
    | name t => exact ⟨_, .name (Nat.not_le.mp h)⟩
    | literal t =>
      by_cases hquoted : IsQuoted t.text
      · exact ⟨_, .literal hquoted (Nat.not_le.mp fun hle => h ⟨hquoted, hle⟩)⟩
      · exact ⟨_, .unquoted hquoted⟩

/-- A check fails with one fault. -/
theorem Fails.unique {d : DocumentId} {text : String} {c : Check} {fault fault' : Fault}
    (h : c.Fails d text fault) (h' : c.Fails d text fault') : fault = fault' := by
  cases h with
  | name h =>
    cases h' with
    | name => rfl
  | unquoted h =>
    cases h' with
    | unquoted => rfl
    | literal hquoted => exact absurd hquoted h
  | literal hquoted h =>
    cases h' with
    | unquoted h' => exact absurd hquoted h'
    | literal => rfl

end Check

/-! ### The first check that fails -/

/-- One of the checks fails with this fault, and all checks before it pass. -/
def FirstFails (d : DocumentId) (text : String) (cs : List Check) (fault : Fault) : Prop :=
  ∃ passed c rest, cs = passed ++ c :: rest ∧ (∀ c' ∈ passed, c'.Passes text) ∧
    c.Fails d text fault

namespace FirstFails

variable {d : DocumentId} {text : String} {c : Check} {cs : List Check} {fault : Fault}

theorem not_nil : ¬ FirstFails d text [] fault := by
  rintro ⟨passed, c, rest, h, -⟩
  exact absurd h (by simp)

theorem cons_iff :
    FirstFails d text (c :: cs) fault ↔
      c.Fails d text fault ∨ c.Passes text ∧ FirstFails d text cs fault := by
  constructor
  · rintro ⟨passed, c', rest, hsplit, hpassed, hfails⟩
    cases passed with
    | nil =>
      obtain ⟨rfl, rfl⟩ := List.cons.inj hsplit
      exact .inl hfails
    | cons _ passed =>
      obtain ⟨rfl, rfl⟩ := List.cons.inj hsplit
      obtain ⟨hc, hpassed⟩ := List.forall_mem_cons.mp hpassed
      exact .inr ⟨hc, passed, c', rest, rfl, hpassed, hfails⟩
  · rintro (hfails | ⟨hc, passed, c', rest, rfl, hpassed, hfails⟩)
    · exact ⟨[], c, cs, rfl, by simp, hfails⟩
    · exact ⟨c :: passed, c', rest, rfl, List.forall_mem_cons.mpr ⟨hc, hpassed⟩, hfails⟩

/-- Some check is the first to fail where any does. -/
theorem exists_iff : (∃ fault, FirstFails d text cs fault) ↔ ∃ c ∈ cs, ¬ c.Passes text := by
  induction cs with
  | nil => simp [not_nil]
  | cons c cs ih =>
    simp only [cons_iff, exists_or, Check.exists_fails_iff, exists_and_left, ih, List.mem_cons,
      exists_eq_or_imp]
    by_cases hc : c.Passes text <;> simp [hc]

end FirstFails

/-! ### A walk -/

namespace Occurrence

variable {o : Occurrence}

/-- A name is missing only where a literal is asked for and there is none. -/
theorem name?_eq_none_iff :
    o.name? = none ↔ o.role.isLiteral = true ∧ ¬ IsQuoted o.token.text := by
  unfold name?
  split
  · next h => rw [literalValue?_eq_none_iff, and_iff_right h]
  · next h => simp [h]

theorem passes_check_iff {text : String} :
    o.check.Passes text ↔ o.name? ≠ none ∧ o.token.span.stop ≤ text.utf8ByteSize := by
  rw [Ne, name?_eq_none_iff, check]
  split
  · next h => simp [h, Check.Passes]
  · next h => simp [h, Check.Passes]

theorem fails_check_iff {d : DocumentId} {text : String} {fault : Fault} :
    o.check.Fails d text fault ↔
      (o.name? = none ∧ fault = .malformedLiteral d o.token.text o.token.span) ∨
        (o.name? ≠ none ∧ text.utf8ByteSize < o.token.span.stop ∧
          fault = .spanOutOfBounds d o.token.span text.utf8ByteSize) := by
  rw [Ne, name?_eq_none_iff, check]
  split
  · -- a literal is checked for its quotes, and then for its span
    next hliteral =>
    rw [and_iff_right hliteral, not_not]
    constructor
    · intro h
      cases h with
      | unquoted h => exact .inl ⟨h, rfl⟩
      | literal hquoted h => exact .inr ⟨hquoted, h, rfl⟩
    · rintro (⟨h, rfl⟩ | ⟨hquoted, h, rfl⟩)
      · exact .unquoted h
      · exact .literal hquoted h
  · -- any other token is checked for its span alone
    next hname =>
    constructor
    · intro h
      cases h with
      | name h => exact .inr ⟨fun hliteral => hname hliteral.1, h, rfl⟩
    · rintro (⟨hliteral, -⟩ | ⟨-, h, rfl⟩)
      · exact absurd hliteral.1 hname
      · exact .name h

end Occurrence

namespace Pass

variable {p : Pass} {d : DocumentId} {text : String} {fault : Fault}

/-- **A visit is its check**: where the check passes, the pass goes on in the same text, and
where it fails, the pass stops with the fault. -/
theorem visit_cases (hd : p.document = d) (hlines : p.lines = .ofText text) (o : Occurrence) :
    (o.check.Passes text ∧
        ∃ q, p.visit o = .ok q ∧ q.document = d ∧ q.lines = .ofText text) ∨
      ∃ fault q, p.visit o = .error ⟨fault, q⟩ ∧ o.check.Fails d text fault := by
  rw [visit_eq, Occurrence.passes_check_iff]
  cases hname : o.name? with
  | none => exact .inr ⟨_, p, rfl, Occurrence.fails_check_iff.mpr (.inl ⟨hname, by rw [hd]⟩)⟩
  | some name =>
    unfold rangeOf
    rw [hlines]
    cases hrange : (LineIndex.ofText text).range? o.token.span with
    -- a span outside the text, whatever the name stands for
    | none =>
      have hstop := LineIndex.range?_eq_none_iff.mp hrange
      refine .inr ⟨_, _, rfl, Occurrence.fails_check_iff.mpr (.inr ⟨by simp [hname], hstop, ?_⟩)⟩
      rw [hd]
      rfl
    | some range =>
      have hstop := (LineIndex.range?_eq_some_iff.mp hrange).1
      refine .inl ⟨⟨by simp, hstop⟩, _, rfl, ?_, ?_⟩
      · rw [document_play, document_play, hd]
      · rw [lines_play, lines_play, hlines]

/-- **A walk stops at the first check that fails**, with its fault. -/
theorem exists_walk_eq_error_iff {os : List Occurrence} (hd : p.document = d)
    (hlines : p.lines = .ofText text) :
    (∃ q, p.walk os = .error ⟨fault, q⟩) ↔ FirstFails d text (os.map (·.check)) fault := by
  -- by induction on the occurrences: the first one fails, or it passes and the rest decides
  induction os generalizing p with
  | nil => simp [FirstFails.not_nil]
  | cons o os ih =>
    rw [List.map_cons, FirstFails.cons_iff, walk_cons]
    rcases visit_cases hd hlines o with ⟨hpasses, q, hq, hqd, hqlines⟩ | ⟨fault', q, hq, hfails⟩
    · -- the walk goes on
      have hnot : ¬ o.check.Fails d text fault :=
        fun hfails => Check.exists_fails_iff.mp ⟨fault, hfails⟩ hpasses
      rw [hq, or_iff_right hnot, and_iff_right hpasses]
      exact ih hqd hqlines
    · -- the walk stops
      have hnot : ¬ o.check.Passes text := Check.exists_fails_iff.mp ⟨fault', hfails⟩
      rw [hq, or_iff_left fun h => hnot h.1]
      constructor
      · rintro ⟨q', h⟩
        obtain rfl : fault' = fault := congrArg Stopped.fault (Except.error.inj h)
        exact hfails
      · intro h
        obtain rfl := hfails.unique h
        exact ⟨q, rfl⟩

end Pass

/-! ### Analyses -/

/-- **An analysis fails where a check does.**  In whatever registry, the analysis of a document
fails with the fault of the first check of its tree that fails, and with no other; so it fails
exactly where some check does.  It is the same analysis whatever stands in the places that are
never checked. -/
theorem analyze_eq_error_iff (source text : String) (d : DocumentId) (tree : Tree) :
    (∀ r fault, (analyze source r d text tree).1 = .error fault ↔
        FirstFails d text tree.checks fault) ∧
      (∀ r, (∃ fault, (analyze source r d text tree).1 = .error fault) ↔
        ∃ c ∈ tree.checks, ¬ c.Passes text) ∧
      ∀ r f, analyze source r d text (tree.mapUnchecked f) = analyze source r d text tree := by
  -- the registry comes into none of the checks
  have hfirst : ∀ r fault, (analyze source r d text tree).1 = .error fault ↔
      FirstFails d text tree.checks fault := by
    intro r fault
    have hwalk : (∃ q, (analysisStart source r d text).walk tree.occurrences =
        .error ⟨fault, q⟩) ↔ FirstFails d text (tree.occurrences.map (·.check)) fault :=
      Pass.exists_walk_eq_error_iff rfl rfl
    rw [tree.checks_eq, ← hwalk, analyze_eq]
    cases (analysisStart source r d text).walk tree.occurrences with
    | ok p => simp
    | error stopped =>
      constructor
      · rintro h
        exact ⟨stopped.reached, by rw [← Except.error.inj h]⟩
      · rintro ⟨q, h⟩
        rw [Except.error.inj h]
  refine ⟨hfirst, fun r => ?_, fun r f => ?_⟩
  · simp only [hfirst r]
    exact FirstFails.exists_iff
  · rw [analyze_eq, analyze_eq, tree.occurrences_mapUnchecked f]

end GrammarIndex
