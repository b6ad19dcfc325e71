import GrammarIndex.Proofs.Symbol.Name
import GrammarIndex.Symbol.Basic
import Mathlib.Data.List.Basic

/-!
# Qualified names taken apart

A qualified name is a plain text, and is taken apart by looking for a scope at its start or for the
last dot in it.  Both find what was joined: a scope sees the names that were qualified with it, and
no other name differently from how it is written, and what comes after the last dot does not depend
on the scope.

## Main results

* `lastSegment_eq_iff` — the last segment is the part without dots after which the name ends.
* `nameWithin_eq_iff` — what a scope takes off a name is the scope itself, and a dot.
* `Symbol.qualify_undone` — **qualified names can be taken apart again**, whatever dots there are in
  scopes and names.
-/

namespace GrammarIndex

/-! ### The last segment -/

theorem toList_lastSegment (name : String) :
    (lastSegment name).toList = (name.toList.reverse.takeWhile (· ≠ '.')).reverse :=
  String.toList_ofList

theorem dotless_lastSegment (name : String) : Dotless (lastSegment name) := by
  rw [Dotless, toList_lastSegment, List.mem_reverse]
  intro hdot
  simpa using List.mem_takeWhile_imp hdot

/-- A name ends with its last segment, and there is a dot in front of it unless it is the whole
name. -/
theorem exists_qualifyIn_lastSegment (name : String) :
    ∃ scope, qualifyIn scope (lastSegment name) = name := by
  have hsplit : (lastSegment name).toList.reverse ++ name.toList.reverse.dropWhile (· ≠ '.') =
      name.toList.reverse := by
    rw [toList_lastSegment, List.reverse_reverse, List.takeWhile_append_dropWhile]
  cases hrest : name.toList.reverse.dropWhile (· ≠ '.') with
  | nil =>
    rw [hrest, List.append_nil, List.reverse_inj, String.toList_inj] at hsplit
    exact ⟨none, hsplit⟩
  | cons c front =>
    -- the first character that is left is the last dot
    obtain rfl : c = '.' := by
      have hhead := List.head?_dropWhile_not (· ≠ '.') name.toList.reverse
      rw [hrest] at hhead
      simpa using hhead
    have hname := congrArg List.reverse hsplit
    rw [hrest, List.reverse_append, List.reverse_cons, List.reverse_reverse, List.reverse_reverse,
      List.append_assoc, List.singleton_append] at hname
    refine ⟨some (String.ofList front.reverse), ?_⟩
    rw [qualifyIn, ← String.toList_inj, toList_qualify, String.toList_ofList, hname]

/-- **The last segment is what comes after the last dot**, or the whole name if it has none. -/
theorem lastSegment_eq_iff {name segment : String} :
    lastSegment name = segment ↔ Dotless segment ∧ ∃ scope, qualifyIn scope segment = name := by
  constructor
  · rintro rfl
    exact ⟨dotless_lastSegment name, exists_qualifyIn_lastSegment name⟩
  · rintro ⟨hsegment, scope, rfl⟩
    cases scope with
    | none => exact lastSegment_of_dotless hsegment
    | some scope => exact lastSegment_qualify_of_dotless hsegment scope

theorem lastSegment_eq_self_iff {name : String} : lastSegment name = name ↔ Dotless name :=
  ⟨fun h => h ▸ dotless_lastSegment name, lastSegment_of_dotless⟩

/-! ### What a scope sees -/

/-- A name is shorter than what is qualified with it. -/
theorem ne_qualify (scope name : String) : name ≠ qualify scope name := by
  intro h
  have hlength := congrArg (fun s : String => s.toList.length) h
  simp at hlength
  omega

/-- **What a scope takes off a name is the scope itself, and a dot.**  It sees a name differently
from how it is written only if the name was qualified with it, and then it sees the rest. -/
theorem nameWithin_eq_iff {scope name rest : String} :
    nameWithin scope name = rest ∧ rest ≠ name ↔ name = qualify scope rest := by
  constructor
  · rintro ⟨h, hne⟩
    unfold nameWithin at h
    -- the dot is there, and what follows it is the name
    split at h
    · next rest' hrest =>
      have hsplit := List.append_eq_of_isPrefixOf?_eq_some hrest
      rw [← h, ← String.toList_inj, toList_qualify, String.toList_ofList, ← hsplit,
        List.append_assoc, List.singleton_append]
    · exact absurd h.symm hne
  · rintro rfl
    exact ⟨nameWithin_qualify scope rest, ne_qualify scope rest⟩

/-! ### Symbols -/

/-- **Qualified names can be taken apart again.**  A symbol that is named in a scope is seen from
there under its own name, and its last segment is that of its own name: the part after the last
dot, and the own name itself just if this has no dot.  Any scope at all sees a symbol differently
from how it is written just if it is named in that scope, and then under its own name.  Own names
without dots can be told apart from their scopes. -/
theorem Symbol.qualify_undone :
    (∀ (s : Symbol) (scope name : String), s.qualifiedName = qualify scope name →
      nameWithin scope s.qualifiedName = name ∧
      (∀ segment, s.name = segment ↔
        Dotless segment ∧ ∃ front, qualifyIn front segment = name) ∧
      (s.name = name ↔ Dotless name)) ∧
    (∀ (s : Symbol) (other rest : String),
      nameWithin other s.qualifiedName = rest ∧ rest ≠ s.qualifiedName ↔
        s.qualifiedName = qualify other rest) ∧
    ∀ scope scope' name name' : String, Dotless name → Dotless name' →
      qualify scope name = qualify scope' name' → scope = scope' ∧ name = name' := by
  refine ⟨?_, fun s other rest => nameWithin_eq_iff, ?_⟩
  · intro s scope name hs
    have hname : s.name = lastSegment name := by rw [Symbol.name, hs, lastSegment_qualify]
    rw [hname, hs]
    exact ⟨nameWithin_qualify scope name, fun _ => lastSegment_eq_iff, lastSegment_eq_self_iff⟩
  · intro scope scope' name name' h h' heq
    -- the lemma is about scopes that may be missing, and these are not
    have hjoined : qualifyIn (some scope) name = qualifyIn (some scope') name' := heq
    obtain ⟨hscope, hname⟩ := (qualifyIn_inj h h').mp hjoined
    exact ⟨Option.some.inj hscope, hname⟩

/-- A virtual symbol with an empty segment in its name.  A longer scope sees another part of it, and
a beginning of its scope sees nothing of it. -/
theorem Symbol.qualify_undone_emptySegment :
    let s := Symbol.placeholder ⟨0⟩ "Größe.a..b"
    s.qualifiedName = qualify "Größe" "a..b" ∧ nameWithin "Größe" s.qualifiedName = "a..b" ∧
      s.name = "b" ∧ s.name ≠ "a..b" ∧
      s.qualifiedName = qualify "Größe.a." "b" ∧ nameWithin "Größe.a." s.qualifiedName = "b" ∧
      nameWithin "Grö" s.qualifiedName = s.qualifiedName ∧
      Dotless "b" ∧ qualify (qualify "Größe" "a.") "b" = qualify "Größe.a." "b" ∧
      qualify "Größe" "a." = "Größe.a." := by
  intro s
  obtain ⟨hown, hany, hapart⟩ := Symbol.qualify_undone
  have hs : s.qualifiedName = qualify "Größe" "a..b" := by decide
  have hother : s.qualifiedName = qualify "Größe.a." "b" := by decide
  have hb : Dotless "b" := by decide
  have hscopes : qualify (qualify "Größe" "a.") "b" = qualify "Größe.a." "b" := by decide
  obtain ⟨hwithin, hsegment, hself⟩ := hown s "Größe" "a..b" hs
  exact ⟨hs, hwithin, (hsegment "b").mpr ⟨hb, some "a.", by decide⟩,
    fun h => absurd (hself.mp h) (by decide), hother, ((hany s "Größe.a." "b").mpr hother).1,
    by decide, hb, hscopes, (hapart _ _ _ _ hb hb hscopes).1⟩

end GrammarIndex
