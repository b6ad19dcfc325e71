import GrammarIndex.Symbol.Basic

/-!
# Open documents

A document is known by its URI, and gets a number the first time anybody asks for
it.  The number stays, also while the document is closed.  An open document has a
text and a language.

## Main definitions

* `DocumentSet` — the documents, by number.
* `DocumentSet.identify` — the number of a URI, given on first request.
* `DocumentSet.setText`, `DocumentSet.setLanguage`, `DocumentSet.close`.
* `DocumentSet.openDocuments` — the documents that have a text.
-/

namespace GrammarIndex

/-- The documents that were ever asked for, and what the open ones hold.

One list tells the number of a URI, the URI of a number and the next free number: numbers are
given one after the other, each to one new URI, and neither is ever taken back.  So a number is a
place in the list, the numbers that were given are those below its length, and a look-up by URI
and one by number read the same pairs. -/
structure DocumentSet where
  /-- The URIs, each at the place that its number tells. -/
  uris : List String
  /-- The texts of the open documents, in the order in which they were opened. -/
  texts : Table DocumentId String
  /-- The languages of documents. -/
  languages : Table DocumentId String
  deriving DecidableEq, Repr

namespace DocumentSet

/-- No document was asked for yet. -/
def empty : DocumentSet := ⟨[], .empty, .empty⟩

instance : Inhabited DocumentSet := ⟨empty⟩

/-- The number of a URI that was asked for before. -/
def find? (s : DocumentSet) (uri : String) : Option DocumentId :=
  (s.uris.idxOf? uri).map fun n => ⟨n⟩

/-- The URI of a number. -/
def uri? (s : DocumentSet) (d : DocumentId) : Option String := s.uris[d.index]?

/-- The number of a URI; a new URI gets the next one. -/
def identify (s : DocumentSet) (uri : String) : DocumentId × DocumentSet :=
  match s.find? uri with
  | some d => (d, s)
  | none => (⟨s.uris.length⟩, { s with uris := s.uris ++ [uri] })

/-- The text of an open document. -/
def text? (s : DocumentSet) (d : DocumentId) : Option String := s.texts.get? d

/-- The documents with a new text for one of them, which is open from then on. -/
def setText (s : DocumentSet) (d : DocumentId) (text : String) : DocumentSet :=
  { s with texts := s.texts.insert d text }

/-- The language of a document. -/
def language? (s : DocumentSet) (d : DocumentId) : Option String := s.languages.get? d

/-- The documents with a new language for one of them. -/
def setLanguage (s : DocumentSet) (d : DocumentId) (language : String) : DocumentSet :=
  { s with languages := s.languages.insert d language }

/-- The document has a text. -/
def isOpen (s : DocumentSet) (d : DocumentId) : Bool := s.texts.contains d

/-- The documents with one of them closed: it loses text and language, and keeps
its number. -/
def remove (s : DocumentSet) (d : DocumentId) : DocumentSet :=
  { s with texts := s.texts.erase d, languages := s.languages.erase d }

/-- A document is closed: whether it was open, and the documents without it. -/
def close (s : DocumentSet) (d : DocumentId) : Bool × DocumentSet := (s.isOpen d, s.remove d)

/-- The open documents, in the order in which they were opened. -/
def openDocuments (s : DocumentSet) : List DocumentId := s.texts.keys

/-- How many documents are open. -/
def size (s : DocumentSet) : Nat := s.texts.size

/-- The number of a URI that was asked for is its own, and is never lost. -/
theorem find?_identify_of_some {s : DocumentSet} {uri : String} {d : DocumentId}
    (h : s.find? uri = some d) (uri' : String) : (s.identify uri').2.find? uri = some d := by
  unfold identify
  split
  · exact h
  · simp only [find?, Option.map_eq_some_iff] at h ⊢
    obtain ⟨n, hn, rfl⟩ := h
    exact ⟨n, by rw [List.idxOf?] at hn ⊢; simp [List.findIdx?_append, hn], rfl⟩

theorem uri?_of_find? {s : DocumentSet} {uri : String} {d : DocumentId} (h : s.find? uri = some d) :
    s.uri? d = some uri := by
  obtain ⟨n, hn, rfl⟩ := Option.map_eq_some_iff.mp h
  obtain ⟨hlt, huri, -⟩ := List.findIdx?_eq_some_iff_getElem.mp hn
  exact List.getElem?_eq_some_iff.mpr ⟨hlt, eq_of_beq huri⟩

/-- A document keeps its URI. -/
theorem uri?_identify_of_some {s : DocumentSet} {d : DocumentId} {uri : String}
    (h : s.uri? d = some uri) (uri' : String) : (s.identify uri').2.uri? d = some uri := by
  unfold identify
  split
  · exact h
  · exact (List.getElem?_append_left (List.getElem?_eq_some_iff.mp h).1).trans h

/-- The number of a URI is the number of a document with this URI. -/
theorem uri?_identify (s : DocumentSet) (uri : String) :
    (s.identify uri).2.uri? (s.identify uri).1 = some uri := by
  unfold identify
  split
  · next d h => exact uri?_of_find? h
  · exact List.getElem?_concat_length

end DocumentSet

end GrammarIndex
