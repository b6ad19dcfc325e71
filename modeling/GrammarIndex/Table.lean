/-!
# Tables in insertion order

A table maps keys to values and remembers the order in which its keys came.  A
key that is written again keeps its place; a key that is erased and written again
comes last.  Beside it stands the list without repetitions that keeps the first
of equal elements.

## Main definitions

* `Table` — a table, given by its entries in order.
* `Table.get?`, `Table.upsert`, `Table.insert`, `Table.erase`.
* `addNew` — add an element at the end, unless the list has it.

## Main results

* `Table.get?_upsert`, `Table.get?_insert`, `Table.get?_erase` — what each
  operation does to a look-up.
-/

namespace GrammarIndex

/-! ### Lists without repetitions -/

/-- The list with `a` at its end, or the list itself if it has `a` already. -/
def addNew {α : Type} [DecidableEq α] (as : List α) (a : α) : List α :=
  if a ∈ as then as else as ++ [a]

theorem mem_addNew {α : Type} [DecidableEq α] {as : List α} {a b : α} :
    b ∈ addNew as a ↔ b ∈ as ∨ b = a := by
  unfold addNew
  split
  · constructor
    · exact Or.inl
    · rintro (h | rfl) <;> assumption
  · simp

/-! ### Tables -/

/-- Keys with their values, in the order in which the keys came. -/
structure Table (κ α : Type) where
  /-- The entries, the oldest first. -/
  entries : List (κ × α)
  deriving DecidableEq, Repr

namespace Table

variable {κ α : Type}

/-- The table without entries. -/
def empty : Table κ α := ⟨[]⟩

instance : Inhabited (Table κ α) := ⟨empty⟩

/-- The keys, the oldest first. -/
def keys (t : Table κ α) : List κ := t.entries.map (·.1)

/-- How many keys the table has. -/
def size (t : Table κ α) : Nat := t.entries.length

/-- The table has no keys. -/
def isEmpty (t : Table κ α) : Bool := t.entries.isEmpty

variable [DecidableEq κ]

/-- The value at a key. -/
def get? (t : Table κ α) (k : κ) : Option α :=
  (t.entries.find? fun e => e.1 = k).map (·.2)

/-- The table has the key. -/
def contains (t : Table κ α) (k : κ) : Bool := (t.get? k).isSome

/-- The entries with the value at `k` made from the value that was there, if any;
a new key comes last. -/
def upsertEntries (k : κ) (f : Option α → α) : List (κ × α) → List (κ × α)
  | [] => [(k, f none)]
  | e :: es =>
    if e.1 = k then (k, f (some e.2)) :: es else e :: upsertEntries k f es

/-- The table with the value at `k` made from the value that was there, if any. -/
def upsert (t : Table κ α) (k : κ) (f : Option α → α) : Table κ α :=
  ⟨upsertEntries k f t.entries⟩

/-- The table with `a` at `k`. -/
def insert (t : Table κ α) (k : κ) (a : α) : Table κ α := t.upsert k fun _ => a

/-- The table without `k`.  The other entries keep their order. -/
def erase (t : Table κ α) (k : κ) : Table κ α :=
  ⟨t.entries.filter fun e => e.1 ≠ k⟩

/-! ### Looking up after an operation -/

@[simp] theorem get?_empty (k : κ) : (empty : Table κ α).get? k = none := rfl

theorem get?_cons (e : κ × α) (es : List (κ × α)) (k : κ) :
    (⟨e :: es⟩ : Table κ α).get? k = if e.1 = k then some e.2 else get? ⟨es⟩ k := by
  simp only [get?, List.find?_cons]
  split <;> simp_all

theorem get?_upsert (t : Table κ α) (k k' : κ) (f : Option α → α) :
    (t.upsert k f).get? k' = if k = k' then some (f (t.get? k)) else t.get? k' := by
  obtain ⟨es⟩ := t
  simp only [upsert]
  induction es with
  | nil => simp [upsertEntries, get?]
  | cons e es ih =>
    simp only [upsertEntries]
    split
    · next h => subst h; by_cases hk : e.1 = k' <;> simp [get?_cons, hk]
    · next h =>
      rw [get?_cons, ih, get?_cons, get?_cons]
      by_cases hk : e.1 = k'
      · have : k ≠ k' := fun h' => h (hk.trans h'.symm)
        simp [hk, this]
      · simp [hk, h]

theorem get?_insert (t : Table κ α) (k k' : κ) (a : α) :
    (t.insert k a).get? k' = if k = k' then some a else t.get? k' :=
  get?_upsert t k k' _

theorem get?_erase (t : Table κ α) (k k' : κ) :
    (t.erase k).get? k' = if k = k' then none else t.get? k' := by
  obtain ⟨es⟩ := t
  simp only [erase]
  induction es with
  | nil => simp [get?]
  | cons e es ih =>
    simp only [List.filter_cons]
    by_cases h : e.1 = k
    · simp only [h, ne_eq, not_true_eq_false, decide_false, Bool.false_eq_true, ↓reduceIte]
      rw [ih, get?_cons]
      by_cases hk : k = k' <;> simp [h, hk]
    · simp only [ne_eq, h, not_false_eq_true, decide_true, ↓reduceIte]
      rw [get?_cons, ih, get?_cons]
      by_cases hk : e.1 = k'
      · have : k ≠ k' := fun h' => h (hk.trans h'.symm)
        simp [hk, this]
      · simp [hk]

end Table

end GrammarIndex
