import GrammarIndex.Registry.Basic

/-!
# Hovering over a symbol

## Main definitions

* `Kind.hoverLabel`, `hoverText` — how a symbol is described.
* `Registry.hover?` — the description of the symbol at a position.
-/

namespace GrammarIndex

/-- What a symbol of this kind is called in a description. -/
def Kind.hoverLabel : Kind → String
  | grammar => "Grammar"
  | context => "Lexical context"
  | terminal => "Terminal symbol"
  | nonterminal => "Variable symbol"
  | virtual => "Virtual symbol"
  | action => "Grammar action"
  | parameter => "Variable parameter"

/-- The description of a symbol, with its name marked up as code. -/
def hoverText (kind : Kind) (name : String) : String :=
  kind.hoverLabel ++ " `" ++ name ++ "`"

/-- A description, and the range that it belongs to. -/
structure Hover where
  /-- The description. -/
  contents : String
  /-- The range of the occurrence. -/
  range : Range
  deriving DecidableEq, Repr

/-- The description of the symbol at a position, if it has a kind. -/
def Registry.hover? (r : Registry) (d : DocumentId) (p : Position) : Option Hover := do
  let hit ← r.symbolAt? d p
  let s ← r.symbol? hit.symbol
  let kind ← s.kind?
  pure ⟨hoverText kind s.qualifiedName, hit.range⟩

end GrammarIndex
