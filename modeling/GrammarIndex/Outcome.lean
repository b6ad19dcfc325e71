/-!
# Computations that end alike

Two computations that may fail are compared by how they end: both with a result, and
the two results are related, or both with a failure, and the two failures are.  The
comparison goes through a sequence of steps if it goes through every single one.

## Main definitions

* `EndAlike` — both succeed or both fail, in a related way.

## Main results

* `EndAlike.foldlM` — **steps that end alike make runs that end alike.**
* `EndAlike.exists_eq_ok`, `EndAlike.exists_ok_eq` — where one succeeds, so does the other.
-/

namespace GrammarIndex

/-- Both computations succeed with related results, or both fail with related failures. -/
inductive EndAlike {ε ε' α β : Type} (F : ε → ε' → Prop) (R : α → β → Prop) :
    Except ε α → Except ε' β → Prop
  /-- Both succeed. -/
  | ok {a : α} {b : β} (h : R a b) : EndAlike F R (.ok a) (.ok b)
  /-- Both fail. -/
  | error {e : ε} {e' : ε'} (h : F e e') : EndAlike F R (.error e) (.error e')

namespace EndAlike

variable {ε ε' α α' β β' ι : Type} {F : ε → ε' → Prop} {R : α → β → Prop}

theorem bind {S : α' → β' → Prop} {x : Except ε α} {y : Except ε' β} {f : α → Except ε α'}
    {g : β → Except ε' β'} (h : EndAlike F R x y)
    (hnext : ∀ {a : α} {b : β}, R a b → EndAlike F S (f a) (g b)) :
    EndAlike F S (x.bind f) (y.bind g) := by
  cases h with
  | ok h => exact hnext h
  | error h => exact .error h

theorem map {S : α' → β' → Prop} {x : Except ε α} {y : Except ε' β} {f : α → α'} {g : β → β'}
    (h : EndAlike F R x y) (hmap : ∀ {a : α} {b : β}, R a b → S (f a) (g b)) :
    EndAlike F S (x.map f) (y.map g) := by
  cases h with
  | ok h => exact .ok (hmap h)
  | error h => exact .error h

theorem eq {x y : Except ε α} (h : EndAlike Eq Eq x y) : x = y := by
  cases h with
  | ok h => rw [h]
  | error h => rw [h]

/-- Where the first succeeds, so does the second. -/
theorem exists_eq_ok {a : α} {y : Except ε' β} (h : EndAlike F R (.ok a) y) :
    ∃ b, y = .ok b ∧ R a b := by
  cases h with
  | ok h => exact ⟨_, rfl, h⟩

/-- Where the second succeeds, so did the first. -/
theorem exists_ok_eq {x : Except ε α} {b : β} (h : EndAlike F R x (.ok b)) :
    ∃ a, x = .ok a ∧ R a b := by
  cases h with
  | ok h => exact ⟨_, rfl, h⟩

/-- **Steps that end alike make runs that end alike.** -/
theorem foldlM {f : α → ι → Except ε α} {g : β → ι → Except ε' β} {is : List ι}
    (hstep : ∀ {a : α} {b : β}, ∀ i ∈ is, R a b → EndAlike F R (f a i) (g b i)) {a : α} {b : β}
    (h : R a b) : EndAlike F R (is.foldlM f a) (is.foldlM g b) := by
  induction is generalizing a b with
  | nil => exact .ok h
  | cons i is ih =>
    refine (hstep i List.mem_cons_self h).bind fun h' => ?_
    exact ih (fun j hj => hstep j (List.mem_cons_of_mem i hj)) h'

end EndAlike

/-- A computation whose result has a property has a result. -/
theorem exists_eq_ok_of_any {ε α β : Type} {outcome : Except ε α × β} {accepts : α → Bool}
    (h : outcome.1.toOption.any accepts = true) :
    ∃ a b, outcome = (.ok a, b) ∧ accepts a = true := by
  obtain ⟨answer, b⟩ := outcome
  cases answer with
  | ok a => exact ⟨a, b, rfl, h⟩
  | error e => exact absurd h (by simp [Except.toOption])

end GrammarIndex
