import GrammarIndex.Symbol.Name
import GrammarIndex.Table
import GrammarIndex.Text.Position

/-!
# Symbols

A symbol is what a qualified name stands for.  It collects, per document, what
the document states about it — a kind and a parent — and the ranges at which the
document defines and references it.  Keeping these per document is what lets a
document be forgotten without a trace.

## Main definitions

* `DocumentId`, `SymbolId`, `Location` — handles, and a range in a document.
* `Kind` — what a symbol names.
* `Symbol` — a symbol with everything the documents say about it.
* `Symbol.effective?` — the statement that decides kind and parent.
* `Symbol.siteAt?` — the occurrence of a symbol at a position.
* `Symbol.state`, `Symbol.addDefinition`, `Symbol.addReference`, `Symbol.forget` —
  what a document can do to a symbol.
-/

namespace GrammarIndex

/-! ### Handles -/

/-- A handle on a document.  Numbers are given one after the other, and fewer than `wordBound` are
ever given: each is a word of 32 bits, and none comes round again. -/
structure DocumentId where
  /-- The number of the document. -/
  index : Nat
  deriving DecidableEq, Repr, Inhabited

/-- A document as people read it. -/
def DocumentId.display (d : DocumentId) : String := s!"doc#{d.index}"

/-- A document as it is written in listings of internal state. -/
def DocumentId.inspect (d : DocumentId) : String := s!"DocumentId({d.index})"

/-- A handle on a symbol: its place in the registry, in order of first mention.  Fewer than
`wordBound` symbols are ever mentioned, so that each place is a word of 32 bits. -/
structure SymbolId where
  /-- The place of the symbol. -/
  index : Nat
  deriving DecidableEq, Repr, Inhabited

/-- A symbol handle as it is written in listings of internal state. -/
def SymbolId.inspect (i : SymbolId) : String := s!"SymbolId({i.index})"

/-- A range in a document. -/
structure Location where
  /-- The document. -/
  document : DocumentId
  /-- The range in it. -/
  range : Range
  deriving DecidableEq, Repr

namespace Location

/-- Locations are ordered by document, and within a document by range. -/
instance : LE Location where
  le a b := a.document.index < b.document.index ∨ a.document = b.document ∧ a.range ≤ b.range

instance : DecidableLE Location := fun a b =>
  inferInstanceAs
    (Decidable (a.document.index < b.document.index ∨
      a.document = b.document ∧ a.range ≤ b.range))

theorem le_def {a b : Location} :
    a ≤ b ↔ a.document.index < b.document.index ∨
      a.document = b.document ∧ a.range ≤ b.range := Iff.rfl

protected theorem le_trans {a b c : Location} (hab : a ≤ b) (hbc : b ≤ c) : a ≤ c := by
  rw [le_def] at *
  rcases hab with hab | ⟨hab, hr⟩ <;> rcases hbc with hbc | ⟨hbc, hr'⟩
  · exact .inl (Nat.lt_trans hab hbc)
  · exact .inl (hbc ▸ hab)
  · exact .inl (hab ▸ hbc)
  · exact .inr ⟨hab.trans hbc, Range.le_trans hr hr'⟩

protected theorem le_total (a b : Location) : a ≤ b ∨ b ≤ a := by
  rw [le_def, le_def]
  rcases Nat.lt_trichotomy a.document.index b.document.index with h | h | h
  · exact .inl (.inl h)
  · have h : a.document = b.document := by
      cases ha : a.document; cases hb : b.document; simp_all
    rcases Range.le_total a.range b.range with hr | hr
    · exact .inl (.inr ⟨h, hr⟩)
    · exact .inr (.inr ⟨h.symm, hr⟩)
  · exact .inr (.inl h)

end Location

/-! ### Kinds -/

/-- What a symbol names. -/
inductive Kind where
  /-- A grammar. -/
  | grammar
  /-- A lexical context, which groups terminals. -/
  | context
  /-- A terminal. -/
  | terminal
  /-- A variable: what a rule of the grammar defines. -/
  | nonterminal
  /-- A virtual symbol, which stands in a rule without matching any text. -/
  | virtual
  /-- A semantic action. -/
  | action
  /-- A parameter of a template rule. -/
  | parameter
  deriving DecidableEq, Repr

namespace Kind

/-- All kinds. -/
def all : List Kind :=
  [grammar, context, terminal, nonterminal, virtual, action, parameter]

/-- The kind in running text. -/
def label : Kind → String
  | grammar => "grammar"
  | context => "lexical context"
  | terminal => "terminal"
  | nonterminal => "variable"
  | virtual => "virtual symbol"
  | action => "action"
  | parameter => "template parameter"

end Kind

/-! ### Symbols -/

/-- What one document states about a symbol. -/
structure Statement where
  /-- The kind of the symbol. -/
  kind : Kind
  /-- The symbol that owns it, if any. -/
  parent : Option SymbolId
  deriving DecidableEq, Repr

/-- A place at which a symbol occurs in a document. -/
structure Site where
  /-- The range of the occurrence. -/
  range : Range
  /-- The symbol is defined there, and not merely referenced. -/
  isDefinition : Bool
  deriving DecidableEq, Repr

/-- A symbol with what every document says about it. -/
structure Symbol where
  /-- The handle of the symbol. -/
  id : SymbolId
  /-- The name that makes the symbol what it is. -/
  qualifiedName : String
  /-- What the documents state about it, the latest statement last. -/
  statements : Table DocumentId Statement
  /-- The ranges at which each document defines it. -/
  definitions : Table DocumentId (List Range)
  /-- The ranges at which each document references it. -/
  references : Table DocumentId (List Range)
  deriving DecidableEq, Repr

namespace Symbol

/-- A symbol about which no document says anything. -/
def placeholder (id : SymbolId) (name : String) : Symbol where
  id := id
  qualifiedName := name
  statements := .empty
  definitions := .empty
  references := .empty

/-- The last segment of the qualified name. -/
def name (s : Symbol) : String := lastSegment s.qualifiedName

/-! ### Kind and parent -/

/-- The statement that decides kind and parent: the latest one by a document that
defines the symbol, or else the latest one. -/
def effective? (s : Symbol) : Option Statement :=
  let newestFirst := s.statements.entries.reverse
  ((newestFirst.find? fun e => s.definitions.contains e.1).or newestFirst.head?).map (·.2)

/-- The kind of the symbol; a placeholder has none. -/
def kind? (s : Symbol) : Option Kind := s.effective?.map (·.kind)

/-- The symbol that owns the symbol. -/
def parent? (s : Symbol) : Option SymbolId := s.effective?.bind (·.parent)

/-! ### Occurrences -/

/-- Some document defines the symbol. -/
def isDefined (s : Symbol) : Bool := !s.definitions.isEmpty

/-- The ranges at which a document defines the symbol, the oldest first. -/
def definitionsIn (s : Symbol) (d : DocumentId) : List Range := (s.definitions.get? d).getD []

/-- The ranges at which a document references the symbol, the oldest first. -/
def referencesIn (s : Symbol) (d : DocumentId) : List Range := (s.references.get? d).getD []

/-- The ranges of a table as locations. -/
def locations (t : Table DocumentId (List Range)) : List Location :=
  t.entries.flatMap fun e => e.2.map fun r => ⟨e.1, r⟩

/-- All places at which the symbol is defined. -/
def definitionLocations (s : Symbol) : List Location := locations s.definitions

/-- All places at which the symbol is referenced. -/
def referenceLocations (s : Symbol) : List Location := locations s.references

/-- The first range of the symbol in a document that contains the position.  A
definition comes before every reference. -/
def siteAt? (s : Symbol) (d : DocumentId) (p : Position) : Option Site :=
  (((s.definitionsIn d).find? fun r => r.Contains p).map fun r => ⟨r, true⟩).or
    (((s.referencesIn d).find? fun r => r.Contains p).map fun r => ⟨r, false⟩)

/-! ### What a document can do -/

/-- A document states a kind and a parent.  Only its first statement counts. -/
def state (s : Symbol) (d : DocumentId) (statement : Statement) : Symbol :=
  if s.statements.contains d then s
  else { s with statements := s.statements.insert d statement }

/-- The ranges of a table with one more range for a document. -/
def addRange (t : Table DocumentId (List Range)) (d : DocumentId) (r : Range) :
    Table DocumentId (List Range) :=
  t.upsert d fun rs => addNew (rs.getD []) r

/-- A document defines the symbol at a range. -/
def addDefinition (s : Symbol) (d : DocumentId) (r : Range) : Symbol :=
  { s with definitions := addRange s.definitions d r }

/-- A document references the symbol at a range. -/
def addReference (s : Symbol) (d : DocumentId) (r : Range) : Symbol :=
  { s with references := addRange s.references d r }

/-- The symbol without anything that a document says about it. -/
def forget (s : Symbol) (d : DocumentId) : Symbol :=
  { s with
    statements := s.statements.erase d
    definitions := s.definitions.erase d
    references := s.references.erase d }

@[simp] theorem id_state (s : Symbol) (d : DocumentId) (st : Statement) :
    (s.state d st).id = s.id := by
  unfold state; split <;> rfl

@[simp] theorem qualifiedName_state (s : Symbol) (d : DocumentId) (st : Statement) :
    (s.state d st).qualifiedName = s.qualifiedName := by
  unfold state; split <;> rfl

@[simp] theorem kind?_placeholder (id : SymbolId) (name : String) :
    (placeholder id name).kind? = none := rfl

@[simp] theorem parent?_placeholder (id : SymbolId) (name : String) :
    (placeholder id name).parent? = none := rfl

theorem definitionsIn_addDefinition (s : Symbol) (d d' : DocumentId) (r : Range) :
    (s.addDefinition d r).definitionsIn d' =
      if d = d' then addNew (s.definitionsIn d) r else s.definitionsIn d' := by
  simp only [definitionsIn, addDefinition, addRange, Table.get?_upsert]
  split <;> rfl

theorem referencesIn_addReference (s : Symbol) (d d' : DocumentId) (r : Range) :
    (s.addReference d r).referencesIn d' =
      if d = d' then addNew (s.referencesIn d) r else s.referencesIn d' := by
  simp only [referencesIn, addReference, addRange, Table.get?_upsert]
  split <;> rfl

theorem definitionsIn_forget (s : Symbol) (d d' : DocumentId) :
    (s.forget d).definitionsIn d' = if d = d' then [] else s.definitionsIn d' := by
  simp only [definitionsIn, forget, Table.get?_erase]
  split <;> rfl

theorem referencesIn_forget (s : Symbol) (d d' : DocumentId) :
    (s.forget d).referencesIn d' = if d = d' then [] else s.referencesIn d' := by
  simp only [referencesIn, forget, Table.get?_erase]
  split <;> rfl

end Symbol

end GrammarIndex
