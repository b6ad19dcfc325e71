import GrammarIndex.Proofs.Symbol.Name
import Mathlib.Logic.Equiv.Basic

/-!
# Renaming a symbol among its neighbours

A qualified name is a path of segments, from the grammar inwards, and a symbol is renamed
by giving its last segment a new name.  Everything inside the symbol moves along.  To keep
the names apart that were apart before, the old and the new name change places: whoever
bore the new name would bear the old one, although nobody does where the new name is
fresh.

## Main definitions

* `joinPath` — the qualified name of a path.
* `Renaming` — a symbol, by its scope and its name, and a new name for it.
* `Renaming.label`, `Renaming.move` — a name in its scope, and a whole path, renamed.
* `Renaming.Renames` — a qualified name and what it is renamed to.
* `Renaming.Carries` — the same of a symbol, where the new name is fresh.

## Main results

* `joinPath_inj` — a qualified name is made up in one way.
* `Renaming.Renames.eq_iff` — **names are told apart after the renaming exactly when they
  were before.**
* `Renaming.eq_of_label_eq`, `Renaming.eq_or_eq_new_of_label_eq` — where the new name is
  fresh, no scope takes one name for another.
* `Renaming.Carries.lastSegment_eq` — **the symbol gets the new name, and every other keeps
  its own.**
-/

namespace GrammarIndex

/-! ### Paths -/

/-- The qualified name that these segments make up, the outermost first. -/
def joinPath : List String → String
  | [] => ""
  | [a] => a
  | a :: b :: rest => qualify a (joinPath (b :: rest))

theorem joinPath_cons {ps : List String} (h : ps ≠ []) (a : String) :
    joinPath (a :: ps) = qualify a (joinPath ps) := by
  cases ps with
  | nil => exact absurd rfl h
  | cons b ps => rfl

theorem joinPath_concat {ps : List String} (h : ps ≠ []) (a : String) :
    joinPath (ps ++ [a]) = qualify (joinPath ps) a := by
  induction ps with
  | nil => exact absurd rfl h
  | cons b ps ih =>
    by_cases hps : ps = []
    · rw [hps]
      rfl
    · rw [List.cons_append, joinPath_cons (List.concat_ne_nil a ps), ih hps, joinPath_cons hps,
        qualify_qualify]

/-- Three segments make up a name in a scope inside a scope. -/
theorem joinPath_three (outer inner name : String) :
    joinPath [outer, inner, name] = qualify (qualify outer inner) name :=
  (qualify_qualify outer inner name).symm

/-- **A qualified name is made up in one way.** -/
theorem joinPath_inj {ps qs : List String} (hps : ps ≠ []) (hqs : qs ≠ [])
    (hp : ∀ a ∈ ps, Dotless a) (hq : ∀ a ∈ qs, Dotless a) :
    joinPath ps = joinPath qs ↔ ps = qs := by
  refine ⟨?_, congrArg joinPath⟩
  -- along the first path: a single name has no dot in it, and any longer path has one
  induction ps generalizing qs with
  | nil => exact absurd rfl hps
  | cons a ps ih =>
    obtain ⟨b, qs, rfl⟩ := List.exists_cons_of_ne_nil hqs
    have ha : Dotless a := hp a List.mem_cons_self
    have hb : Dotless b := hq b List.mem_cons_self
    intro heq
    rcases ps with - | ⟨a', ps⟩ <;> rcases qs with - | ⟨b', qs⟩
    · exact congrArg (fun x => [x]) heq
    · exact absurd heq.symm (qualify_ne_of_dotless ha _ _)
    · exact absurd heq (qualify_ne_of_dotless hb _ _)
    · obtain ⟨rfl, htail⟩ := (qualify_inj ha hb).mp heq
      rw [ih (by simp) (by simp) (fun x hx => hp x (List.mem_cons_of_mem _ hx))
        (fun x hx => hq x (List.mem_cons_of_mem _ hx)) htail]

/-- The scope and the own name of a qualified name are told by it. -/
theorem joinPath_concat_inj {ps qs : List String} {a b : String} (hps : ∀ x ∈ ps, Dotless x)
    (ha : Dotless a) (hqs : ∀ x ∈ qs, Dotless x) (hb : Dotless b) :
    joinPath (ps ++ [a]) = joinPath (qs ++ [b]) ↔ ps = qs ∧ a = b := by
  rw [joinPath_inj (List.concat_ne_nil _ _) (List.concat_ne_nil _ _)]
  · simp
  · simpa [or_imp, forall_and] using ⟨hps, ha⟩
  · simpa [or_imp, forall_and] using ⟨hqs, hb⟩

/-- The own name of a path is its last segment. -/
theorem lastSegment_joinPath {name : String} (h : Dotless name) (ps : List String) :
    lastSegment (joinPath (ps ++ [name])) = name := by
  by_cases hps : ps = []
  · subst hps
    exact lastSegment_of_dotless h
  · rw [joinPath_concat hps]
    exact lastSegment_qualify_of_dotless h _

/-! ### Renamings -/

/-- A symbol, given by its scope and its own name, and a new name for it. -/
structure Renaming where
  /-- The scope of the symbol. -/
  scope : List String
  /-- The name of the symbol. -/
  old : String
  /-- The new name. -/
  new : String
  /-- No name in the scope has a dot. -/
  dotless_scope : ∀ a ∈ scope, Dotless a
  /-- The name has no dot. -/
  dotless_old : Dotless old
  /-- Nor has the new one. -/
  dotless_new : Dotless new

namespace Renaming

variable (ρ : Renaming)

/-- A name in a scope after the renaming. -/
def label (scope : List String) (name : String) : String :=
  if scope = ρ.scope then Equiv.swap ρ.old ρ.new name else name

/-- A path inside a scope after the renaming. -/
def move (scope : List String) : List String → List String
  | [] => []
  | a :: rest => ρ.label scope a :: move (scope ++ [a]) rest

variable {ρ}

theorem label_injective (scope : List String) : Function.Injective (ρ.label scope) := by
  intro a b h
  unfold label at h
  split at h
  · exact (Equiv.swap ρ.old ρ.new).injective h
  · exact h

theorem label_surjective (scope : List String) : Function.Surjective (ρ.label scope) := by
  intro a
  unfold label
  split
  · exact (Equiv.swap ρ.old ρ.new).surjective a
  · exact ⟨a, rfl⟩

theorem dotless_label {a : String} (h : Dotless a) (scope : List String) :
    Dotless (ρ.label scope a) := by
  unfold label
  split
  · rw [Equiv.swap_apply_def]
    split
    · exact ρ.dotless_new
    · split
      · exact ρ.dotless_old
      · exact h
  · exact h

/-- The name of the symbol becomes the new one. -/
theorem label_old : ρ.label ρ.scope ρ.old = ρ.new := by
  rw [label, if_pos rfl, Equiv.swap_apply_left]

/-- Any other name stays as it is, where it is not the new one. -/
theorem label_of_ne {scope : List String} {a : String} (hnew : a ≠ ρ.new)
    (h : ¬ (scope = ρ.scope ∧ a = ρ.old)) : ρ.label scope a = a := by
  unfold label
  split
  · next hscope => exact Equiv.swap_apply_of_ne_of_ne (fun ha => h ⟨hscope, ha⟩) hnew
  · rfl

/-- Where nobody bears the new name, no two names become one, in whatever scopes. -/
theorem eq_of_label_eq {scope scope' : List String} {a b : String} (ha : a ≠ ρ.new)
    (hb : b ≠ ρ.new) (h : ρ.label scope a = ρ.label scope' b) : a = b := by
  by_cases ha' : scope = ρ.scope ∧ a = ρ.old
  · by_cases hb' : scope' = ρ.scope ∧ b = ρ.old
    · rw [ha'.2, hb'.2]
    · rw [ha'.1, ha'.2, label_old, label_of_ne hb hb'] at h
      exact absurd h.symm hb
  · rw [label_of_ne ha ha'] at h
    by_cases hb' : scope' = ρ.scope ∧ b = ρ.old
    · rw [hb'.1, hb'.2, label_old] at h
      exact absurd h ha
    · rwa [label_of_ne hb hb'] at h

/-- Whatever is taken for a name in another scope is that name, or bears the new one. -/
theorem eq_or_eq_new_of_label_eq {scope scope' : List String} {a b : String} (ha : a ≠ ρ.new)
    (h : ρ.label scope' b = ρ.label scope a) : b = a ∨ b = ρ.new := by
  by_cases hb : b = ρ.new
  · exact .inr hb
  · exact .inl (eq_of_label_eq hb ha h)

/-! ### Paths after the renaming -/

theorem move_injective (scope : List String) : Function.Injective (ρ.move scope) := by
  intro ps qs h
  -- on the path, segment after segment; the scope grows by each one that is passed
  induction ps generalizing scope qs with
  | nil =>
    cases qs with
    | nil => rfl
    | cons b qs => exact absurd h (by simp [move])
  | cons a ps ih =>
    cases qs with
    | nil => exact absurd h (by simp [move])
    | cons b qs =>
      simp only [move, List.cons.injEq] at h
      have hab : a = b := label_injective scope h.1
      subst hab
      rw [ih (scope ++ [a]) h.2]

theorem move_append (scope ps qs : List String) :
    ρ.move scope (ps ++ qs) = ρ.move scope ps ++ ρ.move (scope ++ ps) qs := by
  induction ps generalizing scope with
  | nil => rw [List.nil_append, List.append_nil, move, List.nil_append]
  | cons a ps ih => simp [move, ih]

theorem move_ne_nil {ps : List String} (h : ps ≠ []) (scope : List String) :
    ρ.move scope ps ≠ [] := by
  cases ps with
  | nil => exact absurd rfl h
  | cons a ps => simp [move]

theorem dotless_move {ps : List String} (h : ∀ a ∈ ps, Dotless a) (scope : List String) :
    ∀ a ∈ ρ.move scope ps, Dotless a := by
  induction ps generalizing scope with
  | nil => exact fun a ha => absurd ha List.not_mem_nil
  | cons b ps ih =>
    intro a ha
    rcases List.mem_cons.mp ha with rfl | ha
    · exact dotless_label (h b List.mem_cons_self) scope
    · exact ih (fun x hx => h x (List.mem_cons_of_mem _ hx)) _ a ha

/-! ### Qualified names after the renaming -/

/-- The qualified name `n` is renamed to `n'`. -/
def Renames (ρ : Renaming) (n n' : String) : Prop :=
  ∃ ps, ps ≠ [] ∧ (∀ a ∈ ps, Dotless a) ∧ n = joinPath ps ∧ n' = joinPath (ρ.move [] ps)

/-- **Names are told apart after the renaming exactly when they were before.** -/
theorem Renames.eq_iff {n n' m m' : String} (h : ρ.Renames n n') (h' : ρ.Renames m m') :
    n' = m' ↔ n = m := by
  obtain ⟨ps, hne, hdot, rfl, rfl⟩ := h
  obtain ⟨qs, hne', hdot', rfl, rfl⟩ := h'
  rw [joinPath_inj (move_ne_nil hne []) (move_ne_nil hne' []) (dotless_move hdot [])
    (dotless_move hdot' []), joinPath_inj hne hne' hdot hdot']
  exact (move_injective []).eq_iff

/-- A name in a scope of its own after the renaming. -/
theorem renames_qualify {scope name : String} (hscope : Dotless scope) (hname : Dotless name) :
    ρ.Renames (qualify scope name) (qualify (ρ.label [] scope) (ρ.label [scope] name)) :=
  ⟨[scope, name], by simp, by simp [hscope, hname], rfl, rfl⟩

/-! ### Names that are not the new one -/

/-- A name as symbols have it where the new name is fresh. -/
structure Ordinary (ρ : Renaming) (name : String) : Prop where
  /-- The name has no dot. -/
  dotless : Dotless name
  /-- It is not the new name. -/
  ne_new : name ≠ ρ.new

/-- The qualified name `n` of a symbol is renamed to `n'`, where the new name is fresh. -/
def Carries (ρ : Renaming) (n n' : String) : Prop :=
  ∃ home name, (∀ a ∈ home, Dotless a) ∧ ρ.Ordinary name ∧ n = joinPath (home ++ [name]) ∧
    n' = joinPath (ρ.move [] home ++ [ρ.label home name])

theorem carries_home {home : List String} {name : String} (hhome : ∀ a ∈ home, Dotless a)
    (hname : ρ.Ordinary name) :
    ρ.Carries (joinPath (home ++ [name])) (joinPath (ρ.move [] home ++ [ρ.label home name])) :=
  ⟨home, name, hhome, hname, rfl, rfl⟩

namespace Carries

variable {n n' : String}

theorem renames (h : ρ.Carries n n') : ρ.Renames n n' := by
  obtain ⟨home, name, hhome, hname, rfl, rfl⟩ := h
  refine ⟨home ++ [name], List.concat_ne_nil name home, ?_, rfl, ?_⟩
  · simpa [or_imp, forall_and] using ⟨hhome, hname.dotless⟩
  · rw [move_append, List.nil_append]
    rfl

/-- Nobody has the new name before, in whatever scope. -/
theorem ne_qualify_new (h : ρ.Carries n n') (scope : String) : n ≠ qualify scope ρ.new := by
  obtain ⟨home, name, -, hname, rfl, -⟩ := h
  intro heq
  have hlast := congrArg lastSegment heq
  rw [lastSegment_joinPath hname.dotless, lastSegment_qualify_of_dotless ρ.dotless_new] at hlast
  exact hname.ne_new hlast

/-- **The symbol gets the new name, and every other keeps its own.** -/
theorem lastSegment_eq (h : ρ.Carries n n') :
    lastSegment n' = if n = joinPath (ρ.scope ++ [ρ.old]) then ρ.new else lastSegment n := by
  obtain ⟨home, name, hhome, hname, rfl, rfl⟩ := h
  have hpath : joinPath (home ++ [name]) = joinPath (ρ.scope ++ [ρ.old]) ↔
      home = ρ.scope ∧ name = ρ.old :=
    joinPath_concat_inj hhome hname.dotless ρ.dotless_scope ρ.dotless_old
  rw [lastSegment_joinPath (dotless_label hname.dotless _), lastSegment_joinPath hname.dotless]
  split
  · next hsame =>
    obtain ⟨rfl, rfl⟩ := hpath.mp hsame
    exact label_old
  · next hother => exact label_of_ne hname.ne_new fun h => hother (hpath.mpr h)

end Carries

end Renaming

end GrammarIndex
