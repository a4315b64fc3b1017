import EscapeAnalysis.Program
import EscapeAnalysis.TypeStore.Text

/-!
# Text of expressions

`Program.text` : the short text of a node on one line, as it appears in diagnostics and dumps. A part
that is missing is shown as `?`.
-/

namespace EscapeAnalysis.Program

/-- What follows the last dot of a name. -/
def baseName (sym : String) : String :=
  String.ofList (sym.toList.reverse.takeWhile (· ≠ '.')).reverse

/-- The text of a node whose parts nest no deeper than the fuel. -/
def textAt (p : Program) : Nat → NodeId → String
  | 0, _ => ""
  | fuel + 1, n =>
    let x := p.node n
    let opt (m : Option NodeId) : String := match m with
      | some m => p.textAt fuel m
      | none => "?"
    let join (sep : String) (ms : List NodeId) : String := sep.intercalate (ms.map (p.textAt fuel))
    let ty (t : Option Ty) : String := p.types.optText t
    let sym := x.sym.getD "?"
    let call (callee : String) : String :=
      callee ++ "(" ++ join ", " x.list ++ (if x.variadic then "..." else "") ++ ")"
    match x.op with
    | .name | .literal => sym
    | .restArg => "... argument"
    | .closure => "func literal"
    | .key => opt x.left ++ ": " ++ opt x.right
    | .addr => "&" ++ opt x.left
    | .deref => "*" ++ opt x.left
    | .dot | .dotPtr | .dotMethod | .dotInterface | .methodValue => opt x.left ++ "." ++ baseName sym
    | .index | .indexMap => opt x.left ++ "[" ++ opt x.right ++ "]"
    | .slice | .slice3 | .sliceArray | .slice3Array | .sliceString =>
      let bounds := match x.list with
        | [] => ":"
        | [lo] => p.textAt fuel lo ++ ":"
        | bounds => join ":" bounds
      opt x.left ++ "[" ++ bounds ++ "]"
    | .typeAssert | .typeAssertOk => opt x.left ++ ".(" ++ ty x.ty ++ ")"
    | .recv => "<-" ++ opt x.left
    | .callFunc | .callMethod | .callInterface => call (opt x.left)
    | .append => call "append"
    | .len => "len(" ++ opt x.left ++ ")"
    | .cap => "cap(" ++ opt x.left ++ ")"
    | .new => "new(" ++ ty (x.ty.bind p.types.deref?) ++ ")"
    | .makeSlice | .makeMap | .makeChan => "make(" ++ ty x.ty ++ ")"
    | .ptrLit => "&" ++ ty (x.ty.bind p.types.deref?) ++ " literal"
    | .structLit | .arrayLit | .mapLit => ty x.ty ++ " literal"
    | .convIface => opt x.left
    | .conv | .convNop => ty x.ty ++ "(" ++ opt x.left ++ ")"
    | .runesToString | .bytesToString | .runeToString => "string(" ++ opt x.left ++ ")"
    | .stringToRunes | .stringToBytes => "(" ++ ty x.ty ++ ")(" ++ opt x.left ++ ")"
    | .concat => join " + " x.list
    | .plus | .minus | .complement | .not => x.op.symbol ++ opt x.left
    | op =>
      if x.right.isSome then opt x.left ++ " " ++ op.symbol ++ " " ++ opt x.right
      else op.mnemonic

/-- The text of a node. The parts of an expression are nodes, so an expression that does not contain
itself nests no deeper than their number. -/
def text (p : Program) (n : NodeId) : String := p.textAt (p.nodes.size + 1) n

/-- A node that may be missing. -/
def optText (p : Program) : Option NodeId → String
  | some n => p.text n
  | none => "?"

/-- Nodes with commas between them. -/
def listText (p : Program) (ns : List NodeId) : String := ", ".intercalate (ns.map p.text)

end EscapeAnalysis.Program
