import GrammarIndex.Symbol.Name
import Mathlib.Data.List.TakeWhile

/-!
# Qualified names apart

Qualified names are made by joining texts with a dot, so that two of them may be equal
although neither their scopes nor their names are.  A scope without a dot rules that
out: it is the text before the first dot, and it can be read off every name that was
qualified with it.  So does a name without a dot, which is the text after the last one.

## Main definitions

* `qualifyIn` — the qualified name of a name that may have no scope.

## Main results

* `qualify_inj` — a qualified name has one scope without a dot, and one name in it.
* `qualify_ne_of_dotless` — no qualified name is without a dot.
* `lastSegment_qualify` — the last segment of a qualified name does not depend on the scope.
* `qualifyIn_inj` — a qualified name has one name without a dot, and one scope of it, if any.
-/

namespace GrammarIndex

/-- The name has no dot. -/
def Dotless (name : String) : Prop := '.' ∉ name.toList

instance (name : String) : Decidable (Dotless name) :=
  inferInstanceAs (Decidable ('.' ∉ name.toList))

theorem Dotless.ne_dot {name : String} (h : Dotless name) {c : Char} (hc : c ∈ name.toList) :
    decide (c ≠ '.') = true :=
  decide_eq_true fun hdot => h (hdot ▸ hc)

theorem not_dotless_qualify (scope name : String) : ¬ Dotless (qualify scope name) := by
  simp [Dotless]

theorem qualify_ne_of_dotless {n : String} (hn : Dotless n) (scope name : String) :
    qualify scope name ≠ n := by
  rintro rfl
  exact not_dotless_qualify scope name hn

theorem qualify_right_inj {scope name name' : String} :
    qualify scope name = qualify scope name' ↔ name = name' := by
  rw [← String.toList_inj, toList_qualify, toList_qualify, List.append_cancel_left_eq,
    List.cons_inj_right, String.toList_inj]

/-- A scope inside a scope: what is qualified twice is qualified once by the outer scope. -/
theorem qualify_qualify (outer inner name : String) :
    qualify (qualify outer inner) name = qualify outer (qualify inner name) := by
  rw [← String.toList_inj]
  simp

/-- What stands before the first dot. -/
private theorem takeWhile_qualify {scope : String} (h : Dotless scope) (name : String) :
    (qualify scope name).toList.takeWhile (· ≠ '.') = scope.toList := by
  rw [toList_qualify, List.takeWhile_append_of_pos fun _ hc => h.ne_dot hc,
    List.takeWhile_cons_of_neg (by simp), List.append_nil]

/-- **A qualified name has one scope without a dot, and one name in it.** -/
theorem qualify_inj {scope scope' name name' : String} (h : Dotless scope) (h' : Dotless scope') :
    qualify scope name = qualify scope' name' ↔ scope = scope' ∧ name = name' := by
  constructor
  · intro heq
    have hscope : scope = scope' := by
      rw [← String.toList_inj, ← takeWhile_qualify h name, heq, takeWhile_qualify h' name']
    subst hscope
    exact ⟨rfl, qualify_right_inj.mp heq⟩
  · rintro ⟨rfl, rfl⟩
    rfl

/-- The scope of a qualified name does not show in its last segment. -/
theorem lastSegment_qualify (scope name : String) :
    lastSegment (qualify scope name) = lastSegment name := by
  have htake : (qualify scope name).toList.reverse.takeWhile (· ≠ '.') =
      name.toList.reverse.takeWhile (· ≠ '.') := by
    rw [toList_qualify, List.reverse_append, List.reverse_cons, List.append_assoc,
      List.takeWhile_append]
    split
    · next hall =>
      -- there is no dot in the name, and the one in front of it ends the segment
      rw [(List.takeWhile_prefix _).eq_of_length hall]
      simp
    · rfl
  rw [lastSegment, htake, lastSegment]

theorem lastSegment_of_dotless {name : String} (h : Dotless name) : lastSegment name = name := by
  have hall : ∀ c ∈ name.toList.reverse, decide (c ≠ '.') = true :=
    fun c hc => h.ne_dot (List.mem_reverse.mp hc)
  rw [lastSegment, List.takeWhile_eq_self_iff.mpr hall, List.reverse_reverse, String.ofList_toList]

/-- The own name of a qualified name is what was qualified. -/
theorem lastSegment_qualify_of_dotless {name : String} (h : Dotless name) (scope : String) :
    lastSegment (qualify scope name) = name := by
  rw [lastSegment_qualify, lastSegment_of_dotless h]

/-- The qualified name of `name` in a scope, or the name itself if it has none. -/
def qualifyIn (scope : Option String) (name : String) : String :=
  match scope with
  | some scope => qualify scope name
  | none => name

theorem qualify_left_inj {scope scope' name : String} :
    qualify scope name = qualify scope' name ↔ scope = scope' := by
  rw [← String.toList_inj, toList_qualify, toList_qualify, List.append_cancel_right_eq,
    String.toList_inj]

/-- **A qualified name has one name without a dot, and one scope of it**, or none. -/
theorem qualifyIn_inj {scope scope' : Option String} {name name' : String} (h : Dotless name)
    (h' : Dotless name') :
    qualifyIn scope name = qualifyIn scope' name' ↔ scope = scope' ∧ name = name' := by
  refine ⟨fun heq => ?_, fun ⟨hscope, hname⟩ => by rw [hscope, hname]⟩
  cases scope with
  | none =>
    cases scope' with
    | none => exact ⟨rfl, heq⟩
    | some inner' => exact absurd heq.symm (qualify_ne_of_dotless h inner' name')
  | some inner =>
    cases scope' with
    | none => exact absurd heq (qualify_ne_of_dotless h' inner name)
    | some inner' =>
      have heq : qualify inner name = qualify inner' name' := heq
      -- without a dot in them the names are the last segments, and what is left are the scopes
      obtain rfl : name = name' := by
        rw [← lastSegment_qualify_of_dotless h inner, heq,
          lastSegment_qualify_of_dotless h' inner']
      exact ⟨congrArg some (qualify_left_inj.mp heq), rfl⟩

end GrammarIndex
