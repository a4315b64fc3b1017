import EscapeAnalysis.Program.Text

/-!
# Dumps of functions

`Program.dump` : a function as text, a line per statement. `Program.stmtLines` gives the lines of a statement with the
level each stands at, and `Program.blockLines` those of a block, one level deeper than the statement it belongs to. A
line is indented by four blanks per level, and a label stands one level out. The level is a counter of eight bits, and
a block that would take it further cannot be written.
-/

namespace EscapeAnalysis

structure DumpLine where
  level : Nat
  text : String
deriving DecidableEq

def DumpLine.render (l : DumpLine) : String :=
  String.ofList (List.replicate (4 * l.level) ' ') ++ l.text ++ "\n"

/-- The deepest level that the counter reaches. -/
def DumpLine.maxLevel : Nat := 255

namespace Program

/-- The name of the label of a label or jump. -/
def stmtLabel (p : Program) (x : Node) : String :=
  match x.label with
  | some l => p.labelName l
  | none => "?"

/-- The first line of a clause of a type switch. -/
def clauseHead (p : Program) (clause : Node) : String :=
  let head := match clause.ty with
    | some t => "case " ++ p.types.text t
    | none => "default"
  let var := match clause.left with
    | some v => " (" ++ p.text v ++ ")"
    | none => ""
  head ++ var ++ ":"

/-- The first line of a statement. -/
def headText (p : Program) (n : NodeId) : String :=
  let x := p.node n
  match x.op with
  | .label => p.stmtLabel x ++ ":"
  | .decl =>
    let ty := x.left.bind fun v => (p.node v).ty
    "var " ++ (x.left.map p.text).getD "" ++ " " ++ (ty.map p.types.text).getD ""
  | .assign => p.optText x.left ++ " = " ++ p.optText x.right
  | .assignOp => p.optText x.left ++ " " ++ x.sym.getD "op" ++ "= " ++ p.optText x.right
  | .assignMany | .assignCall | .assignRecv | .assignLookup | .assignAssert =>
    p.listText x.list ++ " = " ++ p.listText x.rlist
  | .returnStmt => if x.list.isEmpty then "return" else "return " ++ p.listText x.list
  | .deferStmt => "defer " ++ p.optText x.left
  | .goStmt => "go " ++ p.optText x.left
  | .send => p.optText x.left ++ " <- " ++ p.optText x.right
  | .panicStmt => "panic(" ++ p.optText x.left ++ ")"
  | .goto => "goto " ++ p.stmtLabel x
  | .breakStmt => "break"
  | .continueStmt => "continue"
  | .ifStmt => "if " ++ p.optText x.test ++ " \x7b"
  | .forStmt =>
    match x.test with
    | some cond => "for " ++ p.text cond ++ " \x7b"
    | none => "for \x7b"
  | .rangeStmt =>
    let vars := if x.list.isEmpty then "" else p.listText x.list ++ " = "
    "for " ++ vars ++ "range " ++ p.optText x.right ++ " \x7b"
  | .switchStmt =>
    let subject := x.test.bind fun guard => (p.node guard).right
    "switch " ++ p.optText subject ++ ".(type) \x7b"
  | .block => "\x7b"
  | _ => p.text n

/-- The lines of a statement at `level`, if its blocks can be written. -/
def stmtLines (p : Program) (level : Nat) (block : List NodeId → Option (List DumpLine)) (n : NodeId) :
    Option (List DumpLine) :=
  let x := p.node n
  let line (text : String) : DumpLine := ⟨level, text⟩
  match x.op with
  | .label => return [⟨level - 1, p.headText n⟩]
  | .ifStmt => do
    let body ← block x.body
    let alt ← if x.alt.isEmpty then pure [] else (line "\x7d else \x7b" :: ·) <$> block x.alt
    return line (p.headText n) :: body ++ alt ++ [line "\x7d"]
  | .forStmt | .rangeStmt => do
    let body ← block x.body
    return line (p.headText n) :: body ++ [line "\x7d"]
  | .switchStmt => do
    let clauses ← x.list.mapM fun c => (line (p.clauseHead (p.node c)) :: ·) <$> block (p.node c).body
    return line (p.headText n) :: clauses.flatten ++ [line "\x7d"]
  | .block => do
    let body ← block x.list
    return line (p.headText n) :: body ++ [line "\x7d"]
  | _ => return [line (p.headText n)]

/-- The lines of a block that takes the next of the `room` levels that are left. -/
def blockLines (p : Program) : (room : Nat) → List NodeId → Option (List DumpLine)
  | 0, _ => none
  | room + 1, stmts => List.flatten <$> stmts.mapM (p.stmtLines (DumpLine.maxLevel - room) (p.blockLines room))

def paramText (p : Program) (param : Param) : String :=
  let name := match param.name with
    | some n => p.text n ++ " "
    | none => ""
  let ty := match param.ty with
    | some t => if param.variadic then "..." ++ p.types.text ((p.types.elem? t).getD t) else p.types.text t
    | none => "?"
  name ++ ty

/-- The first line of a function, without its brace. -/
def signatureText (p : Program) (f : Func) : String :=
  let params (ps : List Param) : String := "(" ++ ", ".intercalate (ps.map p.paramText) ++ ")"
  let recv := match f.recv with
    | some r => params [r] ++ " "
    | none => ""
  let results := if f.results.isEmpty then "" else " " ++ params f.results
  "func " ++ recv ++ f.name ++ params f.params ++ results

/-- The text of a function, absent if its blocks nest deeper than there are levels. -/
def dump (p : Program) (f : FuncId) : Option String :=
  let head := p.signatureText (p.func f)
  match (p.func f).body with
  | none => some (head ++ "\n")
  | some body => do
    let lines ← p.blockLines DumpLine.maxLevel body
    return head ++ " \x7b\n" ++ String.join (lines.map DumpLine.render) ++ "\x7d\n"

end Program

end EscapeAnalysis
