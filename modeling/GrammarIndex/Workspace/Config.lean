/-!
# Configuration

Which documents hold grammars, and how they and their diagnostics are labelled.

## Main definitions

* `Config` — the settings; `Config.default` — what they are if nothing is set.
* `extension?` — the extension of a path.
* `Config.handles`, `Config.languageFor` — what the settings say about a path.
-/

namespace GrammarIndex

/-- The settings of an analyzer. -/
structure Config where
  /-- The name of the analyzer, which every diagnostic carries. -/
  source : String
  /-- The language of documents that hold grammars. -/
  languageId : String
  /-- The extensions, without a dot, of paths to such documents. -/
  extensions : List String
  deriving DecidableEq, Repr

/-- The settings if nothing else is said. -/
def Config.default : Config where
  source := "hime"
  languageId := "hime"
  extensions := ["gram"]

instance : Inhabited Config := ⟨.default⟩

/-- The language of documents that hold no grammars. -/
def plainText : String := "text"

/-! ### Extensions -/

/-- The last part of a path, between slashes.  Empty parts and single dots do not
count; a path that ends in two dots has no file name. -/
def fileName? (path : List Char) : Option (List Char) :=
  let parts := (path.splitOn '/').filter fun part => part ≠ [] ∧ part ≠ ['.']
  parts.getLast?.filter fun part => part ≠ ['.', '.']

/-- The part of a path after the last dot of its file name.  A dot that opens the
file name does not count. -/
def extension? (path : List Char) : Option (List Char) :=
  (fileName? path).bind fun name =>
    let backwards := name.reverse
    match backwards.dropWhile (· ≠ '.') with
    | _ :: _ :: _ => some (backwards.takeWhile (· ≠ '.')).reverse
    | _ => none

namespace Config

/-- The document at a path or URI holds grammars. -/
def handles (c : Config) (path : String) : Bool :=
  (extension? path.toList).any fun e => String.ofList e ∈ c.extensions

/-- The language of the document at a path or URI. -/
def languageFor (c : Config) (path : String) : String :=
  if c.handles path then c.languageId else plainText

end Config

end GrammarIndex
