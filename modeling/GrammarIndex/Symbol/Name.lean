/-!
# Names of symbols

A symbol is known by its qualified name: the name of the scope that owns it, a
dot, and its own name.  A virtual symbol may have dots in its own name, so a
qualified name is taken apart exactly only where its scope is known.

## Main definitions

* `qualify` — the qualified name of a name in a scope.
* `lastSegment` — the part of a qualified name after its last dot.
* `nameWithin` — a qualified name as seen from inside a scope.
* `isLegalName` — the names that a symbol may be given.

## Main results

* `nameWithin_qualify` — a scope sees its own names unqualified.
-/

namespace GrammarIndex

/-- The qualified name of `name` in `scope`. -/
def qualify (scope name : String) : String := scope ++ "." ++ name

/-- The part of a name after its last dot, or the whole name if it has none. -/
def lastSegment (name : String) : String :=
  String.ofList (name.toList.reverse.takeWhile (· ≠ '.')).reverse

/-- The rest of a qualified name after `scope` and a dot, or the whole name if it
does not lie in `scope`. -/
def nameWithin (scope name : String) : String :=
  match (scope.toList ++ ['.']).isPrefixOf? name.toList with
  | some rest => String.ofList rest
  | none => name

/-- A character that may open a name. -/
def opensName (c : Char) : Bool := c == '_' || c.isAlpha

/-- A character that may stand inside a name. -/
def continuesName (c : Char) : Bool := c == '_' || c.isAlphanum

/-- The names that a symbol may be given: an ASCII letter or an underscore, and
then ASCII letters, digits and underscores. -/
def isLegalName (name : String) : Bool :=
  match name.toList with
  | [] => false
  | c :: cs => opensName c && cs.all continuesName

@[simp] theorem toList_qualify (scope name : String) :
    (qualify scope name).toList = scope.toList ++ '.' :: name.toList := by
  simp [qualify]

/-- A scope sees a name of its own as it was before it was qualified. -/
@[simp] theorem nameWithin_qualify (scope name : String) :
    nameWithin scope (qualify scope name) = name := by
  have hrest : ∀ cs : List Char,
      (cs ++ ['.']).isPrefixOf? (cs ++ '.' :: name.toList) = some name.toList := by
    intro cs
    induction cs with
    | nil => rfl
    | cons c cs ih =>
      show (if c == c then (cs ++ ['.']).isPrefixOf? (cs ++ '.' :: name.toList) else none) = _
      rw [if_pos (beq_self_eq_true c)]
      exact ih
  simp [nameWithin, hrest]

end GrammarIndex
