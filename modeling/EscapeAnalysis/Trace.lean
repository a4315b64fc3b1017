import EscapeAnalysis.CallGraph.Groups
import EscapeAnalysis.Level
import EscapeAnalysis.Program.Text

/-!
# Traces

An analysis shows its `Event`s to an `Observer` as it makes them: the groups it takes up, the flows it
records, the nodes its walks reach and the notes it writes.

* `Observer.silent` : keeps nothing;
* `Observer.tracer` : keeps the text of the events, one a line.
-/

namespace EscapeAnalysis

inductive Event where
  | group (group : Group)
  /-- The value of `src` flows into `dst`. -/
  | flow (dst src : NodeId)
  /-- The walk back from `dst` reaches `src`. -/
  | reach (level : Level) (dst src : NodeId)
  | note (func : FuncId) (param : Option NodeId) (note : String)
deriving DecidableEq

def Event.text (p : Program) : Event → String
  | group g =>
    "group [" ++ ", ".intercalate (g.funcs.map fun f => (p.func f).name) ++ "]"
      ++ (if g.recursive then " (recursive)" else "")
  | flow dst src => "  flow " ++ p.text dst ++ " <- " ++ p.text src
  | reach level dst src => "  walk " ++ p.text dst ++ " <- " ++ p.text src ++ " level=" ++ level.text
  | note f param written =>
    "  tag " ++ (p.func f).name ++ "(" ++ (param.map p.text).getD "_" ++ ") " ++ written

/-- What watches an analysis. It sees every event with the program as it then stands, and keeps a text. -/
structure Observer where
  see : Program → Event → String → String
  kept : String := ""

namespace Observer

def silent : Observer := { see := fun _ _ kept => kept }

instance : Inhabited Observer := ⟨silent⟩

def tracer : Observer := { see := fun p e kept => kept ++ e.text p ++ "\n" }

/-- Shows an event to the observer. -/
def watch (o : Observer) (p : Program) (e : Event) : Observer := { o with kept := o.see p e o.kept }

end Observer

/-- The text of a trace. -/
def traceText (kept : String) : String := if kept.isEmpty then "<no groups>\n" else kept

end EscapeAnalysis
