import GrammarIndex.Analysis.Pass

/-!
# Calls on a pass

Whoever walks a document makes calls on its pass.  Written down as data, they can be made
one after the other, in any order and with any names, handles and spans, and a law about
passes can be said of every walk that there could be.

## Main definitions

* `Pass.Call` — one call by which a pass may change.
* `Pass.call`, `Pass.calls` — a pass after one call, and after several.
-/

namespace GrammarIndex

namespace Pass

/-- One call by which a pass may change. -/
inductive Call where
  /-- Another grammar begins. -/
  | beginGrammar
  /-- A name is mentioned. -/
  | resolve (name : String)
  /-- A kind is stated where a symbol is defined. -/
  | declare (name : String) (kind : Kind) (parent : Option SymbolId)
  /-- A kind is stated where a symbol is used. -/
  | declareIfUnset (name : String) (kind : Kind) (parent : Option SymbolId)
  /-- A symbol is declared and defined at a span. -/
  | define (name : String) (kind : Kind) (parent : Option SymbolId) (span : Span)
  /-- A symbol is referenced at a span. -/
  | reference (i : SymbolId) (span : Span)
  deriving DecidableEq, Repr

/-- The pass after a call.  One whose span does not lie in the text fails, and changes
nothing. -/
def call (p : Pass) : Call → Pass
  | .beginGrammar => p.beginGrammar
  | .resolve name => (p.resolve name).2
  | .declare name kind parent => (p.declare name kind parent).2
  | .declareIfUnset name kind parent => (p.declareIfUnset name kind parent).2
  | .define name kind parent span =>
    match p.defineAt name kind parent span with
    | .ok (_, p) => p
    | .error _ => p
  | .reference i span =>
    match p.referenceAt i span with
    | .ok p => p
    | .error _ => p

/-- The pass after several calls, whether they fail or not. -/
def calls (p : Pass) (cs : List Call) : Pass := cs.foldl call p

end Pass

end GrammarIndex
