/-!
# Quoted literals

Option values and virtual symbols are written as quoted literals, in single or
double quotes, with backslash escapes in between.

## Main definitions

* `unquote?` — the text between the quotes of a literal.
* `unescape` — a text with its escapes resolved.
* `literalValue?` — both, on a literal as written.

## Main results

* `unquote?_quoted` — quotes enclose any text.
* `unescape_cons_of_ne` — only a backslash begins an escape.
-/

namespace GrammarIndex

/-! ### Quotes -/

/-- The characters that open and close a literal. -/
def isQuote (c : Char) : Bool := c == '"' || c == '\''

/-- The text between the quotes of a literal: it opens with a quote and closes
with the same one.  A lone quote is no literal. -/
def unquote? : List Char → Option (List Char)
  | [] => none
  | q :: rest =>
    if isQuote q ∧ rest.getLast? = some q then some rest.dropLast else none

/-- A text between two equal quotes is what the quotes enclose. -/
theorem unquote?_quoted {q : Char} (h : isQuote q) (content : List Char) :
    unquote? (q :: (content ++ [q])) = some content := by
  simp [unquote?, h]

/-! ### Escapes -/

/-- What a backslash and this character stand for, for the escapes of two
characters. -/
def escaped? : Char → Option Char
  | '\\' => some '\\'
  | '\'' => some '\''
  | '"' => some '"'
  | '0' => some '\x00'
  | 'a' => some '\x07'
  | 'b' => some '\x08'
  | 'f' => some '\x0c'
  | 'n' => some '\n'
  | 'r' => some '\r'
  | 't' => some '\t'
  | 'v' => some '\x0b'
  | _ => none

/-- The value of a hexadecimal digit, in either case. -/
def hexDigit? (c : Char) : Option Nat :=
  if '0' ≤ c ∧ c ≤ '9' then some (c.toNat - '0'.toNat)
  else if 'a' ≤ c ∧ c ≤ 'f' then some (c.toNat - 'a'.toNat + 10)
  else if 'A' ≤ c ∧ c ≤ 'F' then some (c.toNat - 'A'.toNat + 10)
  else none

/-- The character with this code point, unless it is a surrogate or too large. -/
def charOfCodePoint? (n : Nat) : Option Char :=
  if n.isValidChar then some (Char.ofNat n) else none

/-- The character that four hexadecimal digits name, if they name one. -/
def unicodeEscape? (a b c d : Char) : Option Char := do
  let a ← hexDigit? a
  let b ← hexDigit? b
  let c ← hexDigit? c
  let d ← hexDigit? d
  charOfCodePoint? (((a * 16 + b) * 16 + c) * 16 + d)

/-- The text with its escapes resolved.  An unknown escape, a `\u` that is not
followed by four hexadecimal digits or that names a surrogate, and a backslash at
the end all stand for themselves. -/
def unescape : List Char → List Char
  | [] => []
  | '\\' :: 'u' :: a :: b :: c :: d :: rest =>
    match unicodeEscape? a b c d with
    | some decoded => decoded :: unescape rest
    | none => '\\' :: 'u' :: unescape (a :: b :: c :: d :: rest)
  | '\\' :: c :: rest =>
    match escaped? c with
    | some decoded => decoded :: unescape rest
    | none => '\\' :: c :: unescape rest
  | c :: rest => c :: unescape rest

/-- The value of a literal as written: the text between its quotes with the
escapes resolved. -/
def literalValue? (raw : String) : Option String :=
  (unquote? raw.toList).map fun content => String.ofList (unescape content)

@[simp] theorem unescape_nil : unescape [] = [] := rfl

/-- A character that is no backslash stands for itself. -/
theorem unescape_cons_of_ne {c : Char} (h : c ≠ '\\') (rest : List Char) :
    unescape (c :: rest) = c :: unescape rest := by
  rw [unescape.eq_def]
  split <;> simp_all

end GrammarIndex
