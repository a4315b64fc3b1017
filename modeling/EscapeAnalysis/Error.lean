import EscapeAnalysis.Node

/-!
# Why an analysis stops

The causes are faults of whoever made the program; the analysis stops at the first one.
-/

namespace EscapeAnalysis

inductive EscapeError where
  /-- A callee of the group is not planned, or the call has results already. -/
  | graphInconsistency (node : NodeId)
  | repeatedFunc (func : FuncId)
  | labelWithoutSymbol (node : NodeId)
  /-- The note names more outputs than the call has results. -/
  | corruptNote (note : String)
  | returnCount (node : NodeId)
  | callResults (node : NodeId)
  | unexpectedDestination (node : NodeId) (op : Op)
  | argCount (node : NodeId)
  /-- The node is nested inside itself, so a walk over it would not end. -/
  | cyclic (node : NodeId)
deriving DecidableEq

def EscapeError.message : EscapeError → String
  | graphInconsistency n =>
    "graph inconsistency at " ++ n.text ++ ": in-group callee is not planned or call is already bound"
  | repeatedFunc f => f.text ++ " is analyzed twice"
  | labelWithoutSymbol n => "label or goto " ++ n.text ++ " has no label symbol"
  | corruptNote note => "corrupt escape tag `" ++ note ++ "` or missing call results"
  | returnCount n => "return " ++ n.text ++ " has more values than the function has results"
  | callResults n => "multi-value assignment " ++ n.text ++ " does not match the call results"
  | unexpectedDestination n op =>
    "unexpected assignment destination " ++ n.text ++ " (" ++ op.mnemonic ++ ")"
  | argCount n => "call " ++ n.text ++ " passes more arguments than the callee accepts"
  | cyclic n => n.text ++ " is nested inside itself"

end EscapeAnalysis
