import EscapeAnalysis.Diagnostic
import EscapeAnalysis.Level
import EscapeAnalysis.Program.Text

/-!
# Findings

A `Finding` is what the analysis found at a node. It goes to the report at once, worded by the program
as it then stands; the configuration says whether it does, in which words, and how many a report keeps.

* `Finding.diagnostic` : the wording;
* `Config.record` : a report with one more finding.
-/

namespace EscapeAnalysis

inductive Finding where
  /-- The input flows at `level` to the output `out` of the same function. -/
  | leaksToResult (param out : NodeId) (level : Level)
  /-- The input, or what it points to if its content leaks, outlives the function through `dst`. -/
  | leaks (param dst : NodeId) (level : Level) (dstDepth srcDepth : Int)
  | leaksCaptured (name : NodeId)
  | contentEscapes (param : NodeId)
  /-- The address `src`, shown as `shown`, reaches the heap. -/
  | addressEscapes (src shown : NodeId) (level : Level) (dstDepth srcDepth : Int)
  | allocEscapes (src : NodeId)
  | moved (var : NodeId)
  | stays (node : NodeId) (func : Option FuncId)
  /-- The assignment stores into `dst` a slice of what `dst` holds. -/
  | selfAssigns (stmt dst : NodeId) (func : Option FuncId)
deriving DecidableEq

namespace Finding

def kind : Finding → DiagnosticKind
  | leaksToResult .. => .leakingParamToResult
  | leaks _ _ level _ _ => if 0 < level.suffix then .leakingParamContent else .leakingParam
  | leaksCaptured .. => .leakingClosureRef
  | contentEscapes .. => .markEscapedContent
  | addressEscapes .. => .escapesToHeap
  | allocEscapes .. => .escapesToHeap
  | moved .. => .movedToHeap
  | stays .. => .doesNotEscape
  | selfAssigns .. => .ignoredSelfAssignment

/-- The node a finding is about. -/
def node : Finding → NodeId
  | leaksToResult n .. | leaks n .. | leaksCaptured n | contentEscapes n | addressEscapes n ..
  | allocEscapes n | moved n | stays n .. | selfAssigns n .. => n

/-- The function a finding is about. -/
def func (p : Program) : Finding → Option FuncId
  | stays _ f | selfAssigns _ _ f => f
  | finding => (p.node finding.node).curfn

def message (p : Program) (verbose : Bool) : Finding → String
  | leaksToResult param out level =>
    "leaking param: " ++ p.text param ++ " to result " ++ (p.node out).sym.getD "" ++ " level="
      ++ (if verbose then level.text else toString level.value)
  | leaks param dst level dstDepth srcDepth =>
    (if 0 < level.suffix then "leaking param content" else "leaking param") ++ ": " ++ p.text param
      ++ (if verbose then
          " level=" ++ level.text ++ " dst.eld=" ++ toString dstDepth ++ " src.eld=" ++ toString srcDepth
            ++ " dst=" ++ p.text dst
        else "")
  | leaksCaptured name => "leaking closure reference " ++ p.text name
  | contentEscapes param => "mark escaped content: " ++ p.text param
  | addressEscapes _ shown level dstDepth srcDepth =>
    p.text shown ++ " escapes to heap"
      ++ (if verbose then
          ", level=" ++ level.text ++ ", dst.eld=" ++ toString dstDepth ++ ", src.eld=" ++ toString srcDepth
        else "")
  | allocEscapes src => p.text src ++ " escapes to heap"
  | moved var => "moved to heap: " ++ p.text var
  | stays node f =>
    (match f with
      | some f => (p.func f).name ++ " "
      | none => "") ++ p.text node ++ " does not escape"
  | selfAssigns _ dst f =>
    ((f.map fun f => (p.func f).name).getD "") ++ " ignoring self-assignment to " ++ p.text dst

def diagnostic (p : Program) (verbose : Bool) (x : Finding) : Diagnostic :=
  ⟨x.kind, (p.node x.node).line, x.func p, x.message p verbose⟩

end Finding

/-- Adds a finding to a report, if the configuration asks for reports. -/
def Config.record (c : Config) (p : Program) (x : Finding) (r : Report) : Report :=
  if c.shouldReport then r.push c.maxDiagnostics (x.diagnostic p c.isVerbose) else r

end EscapeAnalysis
