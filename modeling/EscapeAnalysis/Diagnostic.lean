import EscapeAnalysis.Node

/-!
# Diagnostics and reports

A `Diagnostic` is a decision of the analysis at a line; a `Report` is a list of them in the order they
were made. A `Config` says which diagnostics a report keeps.

* `Report.push` : one more diagnostic, if there is room for it;
* `Report.sorted` : by line, diagnostics of one line in their order;
* `Report.text` : the sorted diagnostics, one a line.
-/

namespace EscapeAnalysis

/-! ## Configuration -/

inductive DebugLevel where
  | off
  /-- One diagnostic per decision. -/
  | summary
  /-- The same with levels and loop depths. -/
  | verbose
deriving DecidableEq, Inhabited

namespace DebugLevel

def rank : DebugLevel → Nat
  | off => 0
  | summary => 1
  | verbose => 2

instance : LE DebugLevel := ⟨fun a b => a.rank ≤ b.rank⟩

instance (a b : DebugLevel) : Decidable (a ≤ b) := inferInstanceAs (Decidable (a.rank ≤ b.rank))

end DebugLevel

structure Config where
  debug : DebugLevel
  /-- How many diagnostics are kept; zero keeps all. -/
  maxDiagnostics : Nat
deriving DecidableEq

namespace Config

def ofLevel (debug : DebugLevel) : Config :=
  ⟨debug, match debug with
    | .off | .summary => 200
    | .verbose => 500⟩

instance : Inhabited Config := ⟨ofLevel .off⟩

def shouldReport (c : Config) : Bool := c.debug ≠ .off

def isVerbose (c : Config) : Bool := c.debug = .verbose

end Config

/-! ## Diagnostics -/

inductive DiagnosticKind where
  | leakingParam
  | leakingParamContent
  | leakingParamToResult
  | leakingClosureRef
  | markEscapedContent
  | escapesToHeap
  | movedToHeap
  | doesNotEscape
  | ignoredSelfAssignment
deriving DecidableEq, Inhabited

namespace DiagnosticKind

def all : List DiagnosticKind :=
  [leakingParam, leakingParamContent, leakingParamToResult, leakingClosureRef, markEscapedContent,
    escapesToHeap, movedToHeap, doesNotEscape, ignoredSelfAssignment]

def name : DiagnosticKind → String
  | leakingParam => "leaking-param"
  | leakingParamContent => "leaking-param-content"
  | leakingParamToResult => "leaking-param-to-result"
  | leakingClosureRef => "leaking-closure-ref"
  | markEscapedContent => "mark-escaped-content"
  | escapesToHeap => "escapes-to-heap"
  | movedToHeap => "moved-to-heap"
  | doesNotEscape => "does-not-escape"
  | ignoredSelfAssignment => "ignored-self-assignment"

def ofName? (s : String) : Option DiagnosticKind := all.find? (·.name == s)

end DiagnosticKind

structure Diagnostic where
  kind : DiagnosticKind
  line : UInt32
  func : Option FuncId
  message : String
deriving DecidableEq

def Diagnostic.text (d : Diagnostic) : String := toString d.line ++ ": " ++ d.message

/-! ## Reports -/

structure Report where
  diagnostics : List Diagnostic := []
deriving DecidableEq, Inhabited

namespace Report

def isEmpty (r : Report) : Bool := r.diagnostics.isEmpty

/-- Adds a diagnostic unless `max` of them are kept already; zero is no limit. -/
def push (r : Report) (max : Nat) (d : Diagnostic) : Report :=
  if max = 0 ∨ r.diagnostics.length < max then ⟨r.diagnostics ++ [d]⟩ else r

def ofKind (r : Report) (kind : DiagnosticKind) : List Diagnostic := r.diagnostics.filter (·.kind = kind)

/-- Some diagnostic has exactly this message. -/
def contains (r : Report) (message : String) : Bool := r.diagnostics.any (·.message = message)

def sorted (r : Report) : List Diagnostic := r.diagnostics.mergeSort fun a b => a.line ≤ b.line

def text (r : Report) : String := "\n".intercalate (r.sorted.map Diagnostic.text)

end Report

end EscapeAnalysis
