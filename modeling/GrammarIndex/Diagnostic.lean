import GrammarIndex.Symbol.Basic

/-!
# Diagnostics

A diagnostic tells the author of a grammar about a mistake in it.  There are six
kinds of mistakes, and each has a stable code, a severity and a wording.

## Main definitions

* `Mistake` — the mistakes, with `Mistake.code`, `Mistake.severity` and
  `Mistake.message`.
* `Diagnostic` — a mistake at a range of a document.
* `DiagnosticLog` — the diagnostics of one document, in the order they came up.
-/

namespace GrammarIndex

/-- How bad a mistake is. -/
inductive Severity where
  /-- The grammar cannot work. -/
  | error
  /-- The grammar may still work. -/
  | warning
  deriving DecidableEq, Repr

/-- The number by which editors know a severity. -/
def Severity.number : Severity → Nat
  | error => 1
  | warning => 2

/-- A mistake in a grammar. -/
inductive Mistake where
  /-- The start symbol is not a variable of the grammar. -/
  | invalidAxiom
  /-- The separator is not a terminal of the grammar. -/
  | invalidSeparator
  /-- The definition of a terminal mentions the terminal. -/
  | selfReferentialTerminal
  /-- A terminal is neither in the grammar nor in a parent. -/
  | missingTerminal
  /-- A lexical context is not in the grammar. -/
  | missingContext
  /-- A name in a rule is neither in the grammar nor in a parent. -/
  | missingSymbol
  deriving DecidableEq, Repr

namespace Mistake

/-- All mistakes, in the order of their codes. -/
def all : List Mistake :=
  [invalidAxiom, invalidSeparator, selfReferentialTerminal, missingTerminal, missingContext,
    missingSymbol]

/-- The stable code of a mistake. -/
def code : Mistake → String
  | invalidAxiom => "hime.1"
  | invalidSeparator => "hime.2"
  | selfReferentialTerminal => "hime.3"
  | missingTerminal => "hime.4"
  | missingContext => "hime.5"
  | missingSymbol => "hime.6"

/-- Only a terminal that refers to itself is an error. -/
def severity : Mistake → Severity
  | selfReferentialTerminal => .error
  | _ => .warning

/-- What the author is told; `name` is the name that is wrong. -/
def message (m : Mistake) (name : String) : String :=
  match m with
  | invalidAxiom => s!"Axiom '{name}' is not a variable defined in this grammar."
  | invalidSeparator =>
    s!"Separator terminal '{name}' is not a terminal defined in this grammar."
  | selfReferentialTerminal => s!"Terminal '{name}' is self-referential in its definition."
  | missingTerminal => s!"Missing definition for referenced terminal '{name}'."
  | missingContext => s!"Missing definition for referenced lexical context '{name}'."
  | missingSymbol => s!"Missing definition for referenced symbol '{name}'."

end Mistake

/-- A mistake at a range of a document. -/
structure Diagnostic where
  /-- The document. -/
  document : DocumentId
  /-- The range of the mistake. -/
  range : Range
  /-- How bad it is. -/
  severity : Severity
  /-- The mistake. -/
  mistake : Mistake
  /-- The name of the analyzer that found it. -/
  source : String
  /-- What the author is told. -/
  message : String
  deriving DecidableEq, Repr

/-- A diagnostic whose severity is that of its mistake. -/
def Diagnostic.make (document : DocumentId) (range : Range) (mistake : Mistake)
    (source message : String) : Diagnostic where
  document := document
  range := range
  severity := mistake.severity
  mistake := mistake
  source := source
  message := message

/-- The diagnostics of one document, in the order they came up. -/
structure DiagnosticLog where
  /-- The document that is being looked at. -/
  document : DocumentId
  /-- The name of the analyzer that looks at it. -/
  source : String
  /-- The diagnostics, the oldest first. -/
  entries : List Diagnostic
  deriving DecidableEq, Repr

namespace DiagnosticLog

/-- A log without diagnostics. -/
def start (document : DocumentId) (source : String) : DiagnosticLog := ⟨document, source, []⟩

/-- The log with one more diagnostic, of any document and source. -/
def add (log : DiagnosticLog) (d : Diagnostic) : DiagnosticLog :=
  { log with entries := log.entries ++ [d] }

/-- The log with a mistake noted, in its own document and under its own source. -/
def note (log : DiagnosticLog) (mistake : Mistake) (range : Range) (name : String) :
    DiagnosticLog :=
  log.add (.make log.document range mistake log.source (mistake.message name))

/-- How many diagnostics the log has. -/
def size (log : DiagnosticLog) : Nat := log.entries.length

/-- How many diagnostics of a severity the log has. -/
def count (log : DiagnosticLog) (severity : Severity) : Nat :=
  log.entries.countP fun d => d.severity = severity

/-- The log has an error. -/
def hasErrors (log : DiagnosticLog) : Bool := log.entries.any fun d => d.severity = .error

end DiagnosticLog

end GrammarIndex
