import GrammarIndex.Symbol.Basic

/-!
# The registry

The registry holds every symbol that any document ever mentioned.  A name gets
its symbol on first mention and keeps it for good.  Beside the symbols stand two
indices: from names to symbols, and from documents to the symbols they speak of.

## Main definitions

* `Registry` — symbols and indices.
* `Registry.resolve` — the symbol of a name, made on first mention.
* `Registry.setKind`, `Registry.setKindIfUnset` — a document states a kind, at a
  definition or at a use.
* `Registry.addDefinition`, `Registry.addReference`, `Registry.forget`.
* `Registry.symbolAt?` — the innermost occurrence at a position.

## Main results

* `Registry.lookup?_resolve`, `Registry.symbol?_write`, `Registry.symbol?_forget` —
  what each operation does to a look-up.
* `Registry.idsIn_write`, `Registry.idsIn_forget` — and to the index by document.
-/

namespace GrammarIndex

/-- Every symbol ever mentioned, with an index by name and an index by document. -/
structure Registry where
  /-- The symbol of each name. -/
  names : Table String SymbolId
  /-- The symbols, each at the place that its handle tells. -/
  symbols : List Symbol
  /-- The symbols that each document speaks of. -/
  documents : Table DocumentId (List SymbolId)
  deriving DecidableEq, Repr

/-- An occurrence of a symbol that was found at a position. -/
structure Hit where
  /-- The symbol. -/
  symbol : SymbolId
  /-- The range of the occurrence. -/
  range : Range
  /-- The symbol is defined there. -/
  isDefinition : Bool
  deriving DecidableEq, Repr

namespace Registry

/-- The registry without symbols. -/
def empty : Registry := ⟨.empty, [], .empty⟩

instance : Inhabited Registry := ⟨empty⟩

/-! ### Looking up -/

/-- How many symbols there are, placeholders included. -/
def size (r : Registry) : Nat := r.symbols.length

/-- The handle of a name that was mentioned before. -/
def lookup? (r : Registry) (name : String) : Option SymbolId := r.names.get? name

/-- The symbol of a handle. -/
def symbol? (r : Registry) (i : SymbolId) : Option Symbol := r.symbols[i.index]?

/-- The symbol of a name. -/
def symbolNamed? (r : Registry) (name : String) : Option Symbol :=
  (r.lookup? name).bind r.symbol?

/-- The kind of the symbol of a handle. -/
def kind? (r : Registry) (i : SymbolId) : Option Kind := (r.symbol? i).bind (·.kind?)

/-- The kind of the symbol of a name. -/
def kindNamed? (r : Registry) (name : String) : Option Kind := (r.lookup? name).bind r.kind?

/-- The handles of the symbols that a document speaks of. -/
def idsIn (r : Registry) (d : DocumentId) : List SymbolId := (r.documents.get? d).getD []

/-- The symbols that a document speaks of, in the order of their handles. -/
def symbolsIn (r : Registry) (d : DocumentId) : List Symbol :=
  r.symbols.filter fun s => s.id ∈ r.idsIn d

/-- The symbols that have a kind, in the order of their handles. -/
def knownSymbols (r : Registry) : List Symbol := r.symbols.filter fun s => s.kind?.isSome

/-- The occurrence at a position of a document.  Each symbol of the document
offers its first range there; of these the one with the least extent is taken,
and of equals that of the oldest symbol. -/
def symbolAt? (r : Registry) (d : DocumentId) (p : Position) : Option Hit :=
  let hits := (r.symbolsIn d).filterMap fun s =>
    (s.siteAt? d p).map fun site => Hit.mk s.id site.range site.isDefinition
  hits.minOn? fun hit => hit.range.extent

/-- The size of the registry and of its index by document, in one line. -/
def summary (r : Registry) : String :=
  s!"SymbolRegistry \x7b symbols: {r.size}, documents: {r.documents.size} \x7d"

/-! ### Writing -/

/-- The symbol of a name, with a placeholder made on first mention. -/
def resolve (r : Registry) (name : String) : SymbolId × Registry :=
  match r.lookup? name with
  | some i => (i, r)
  | none =>
    let i : SymbolId := ⟨r.size⟩
    (i, { r with
      symbols := r.symbols ++ [.placeholder i name]
      names := r.names.insert name i })

/-- A document says something about a symbol: the symbol changes, and the index
by document notes it.  A handle that was never given out is ignored. -/
def write (r : Registry) (d : DocumentId) (i : SymbolId) (change : Symbol → Symbol) : Registry :=
  if i.index < r.size then
    { r with
      symbols := r.symbols.modify i.index change
      documents := r.documents.upsert d fun ids => addNew (ids.getD []) i }
  else r

/-- The document has stated a kind for the symbol. -/
def hasStatement (r : Registry) (d : DocumentId) (i : SymbolId) : Bool :=
  (r.symbol? i).any fun s => s.statements.contains d

/-- A document states the kind and the parent of a symbol.  Its first statement
sticks until the document is forgotten; the answer tells whether this was it. -/
def setKind (r : Registry) (d : DocumentId) (i : SymbolId) (kind : Kind)
    (parent : Option SymbolId) : Bool × Registry :=
  ((r.symbol? i).isSome && !r.hasStatement d i, r.write d i (·.state d ⟨kind, parent⟩))

/-- A document states the kind of a symbol where it merely uses it: only a symbol
without a kind, or with this very kind, takes the statement. -/
def setKindIfUnset (r : Registry) (d : DocumentId) (i : SymbolId) (kind : Kind)
    (parent : Option SymbolId) : Bool × Registry :=
  if (r.kind? i).all (· = kind) then r.setKind d i kind parent else (false, r)

/-- A document defines a symbol at a range. -/
def addDefinition (r : Registry) (d : DocumentId) (i : SymbolId) (range : Range) : Registry :=
  r.write d i (·.addDefinition d range)

/-- A document references a symbol at a range. -/
def addReference (r : Registry) (d : DocumentId) (i : SymbolId) (range : Range) : Registry :=
  r.write d i (·.addReference d range)

/-- The registry without anything that a document says.  Its symbols keep their
handles; one that nobody else speaks of is a placeholder again. -/
def forget (r : Registry) (d : DocumentId) : Registry :=
  { r with
    symbols := r.symbols.map fun s => if s.id ∈ r.idsIn d then s.forget d else s
    documents := r.documents.erase d }

/-- How many symbols a document speaks of. -/
def countIn (r : Registry) (d : DocumentId) : Nat := (r.idsIn d).length

/-! ### Looking up after writing -/

theorem lookup?_resolve (r : Registry) (name name' : String) :
    (r.resolve name).2.lookup? name' =
      if name = name' then some (r.resolve name).1 else r.lookup? name' := by
  unfold resolve
  split
  · next i h => split <;> simp_all
  · simp [lookup?, Table.get?_insert]

@[simp] theorem documents_resolve (r : Registry) (name : String) :
    (r.resolve name).2.documents = r.documents := by
  unfold resolve; split <;> rfl

@[simp] theorem names_write (r : Registry) (d : DocumentId) (i : SymbolId)
    (change : Symbol → Symbol) : (r.write d i change).names = r.names := by
  unfold write; split <;> rfl

@[simp] theorem size_write (r : Registry) (d : DocumentId) (i : SymbolId)
    (change : Symbol → Symbol) : (r.write d i change).size = r.size := by
  unfold write; split <;> simp [size]

theorem symbol?_write (r : Registry) (d : DocumentId) (i j : SymbolId)
    (change : Symbol → Symbol) :
    (r.write d i change).symbol? j =
      if i = j then (r.symbol? j).map change else r.symbol? j := by
  obtain ⟨i⟩ := i
  obtain ⟨j⟩ := j
  unfold write
  split
  · simp only [symbol?, List.getElem?_modify, SymbolId.mk.injEq]
    split <;> simp
  · next h =>
    simp only [symbol?, SymbolId.mk.injEq]
    split
    · next h' => subst h'; simp [List.getElem?_eq_none (Nat.le_of_not_lt h)]
    · rfl

@[simp] theorem names_forget (r : Registry) (d : DocumentId) : (r.forget d).names = r.names := rfl

@[simp] theorem size_forget (r : Registry) (d : DocumentId) : (r.forget d).size = r.size := by
  simp [forget, size]

theorem idsIn_write (r : Registry) (d d' : DocumentId) (i : SymbolId)
    (change : Symbol → Symbol) :
    (r.write d i change).idsIn d' =
      if d = d' ∧ i.index < r.size then addNew (r.idsIn d') i else r.idsIn d' := by
  unfold write
  by_cases hi : i.index < r.size
  · by_cases hd : d = d' <;> simp [hi, hd, idsIn, Table.get?_upsert]
  · simp [hi]

theorem idsIn_forget (r : Registry) (d d' : DocumentId) :
    (r.forget d).idsIn d' = if d = d' then [] else r.idsIn d' := by
  simp only [idsIn, forget, Table.get?_erase]
  split <;> rfl

theorem symbol?_forget (r : Registry) (d : DocumentId) (i : SymbolId) :
    (r.forget d).symbol? i =
      (r.symbol? i).map fun s => if s.id ∈ r.idsIn d then s.forget d else s := by
  simp [symbol?, forget]

end Registry

end GrammarIndex
