/-!
# Operators of nodes

`Op` says what a node is: a name, a statement, a call, an access to memory, a conversion, an
allocation or arithmetic.

* `Op.mnemonic`, `Op.ofMnemonic?` : the word an operator is listed under;
* `Op.symbol` : how an operator is written between its operands.
-/

namespace EscapeAnalysis

inductive Op where
  | name
  | literal
  /-- The slice of the `...` arguments of a call, allocated without being written. -/
  | restArg
  /-- An entry `key: value` of a composite literal. -/
  | key
  | block
  | decl
  | assign
  | assignOp
  | assignMany
  /-- Several destinations and one call. -/
  | assignCall
  | assignRecv
  | assignLookup
  | assignAssert
  | ifStmt
  | forStmt
  | rangeStmt
  | switchStmt
  | typeGuard
  | caseClause
  | label
  | goto
  | breakStmt
  | continueStmt
  | returnStmt
  | deferStmt
  | goStmt
  | send
  | panicStmt
  | callFunc
  | callMethod
  | callInterface
  /-- A method bound to its receiver. -/
  | methodValue
  | addr
  | deref
  | dot
  | dotPtr
  | dotMethod
  | dotInterface
  | typeAssert
  | typeAssertOk
  | index
  | indexMap
  | slice
  | slice3
  | sliceArray
  | slice3Array
  | sliceString
  | recv
  | len
  | cap
  | conv
  | convNop
  | convIface
  | append
  | arrayLit
  | structLit
  | mapLit
  | ptrLit
  | closure
  | makeChan
  | makeMap
  | makeSlice
  | new
  | runesToString
  | bytesToString
  | stringToRunes
  | stringToBytes
  | runeToString
  | concat
  | add
  | sub
  | or
  | xor
  | mul
  | div
  | mod
  | shl
  | shr
  | and
  | andNot
  | plus
  | minus
  | complement
  | not
  | eq
  | ne
  | lt
  | le
  | gt
  | ge
  | andAnd
  | orOr
deriving DecidableEq

namespace Op

def all : List Op :=
  [.name, .literal, .restArg, .key, .block, .decl, .assign, .assignOp, .assignMany,
    .assignCall, .assignRecv, .assignLookup, .assignAssert, .ifStmt, .forStmt, .rangeStmt,
    .switchStmt, .typeGuard, .caseClause, .label, .goto, .breakStmt, .continueStmt,
    .returnStmt, .deferStmt, .goStmt, .send, .panicStmt, .callFunc, .callMethod,
    .callInterface, .methodValue, .addr, .deref, .dot, .dotPtr, .dotMethod, .dotInterface,
    .typeAssert, .typeAssertOk, .index, .indexMap, .slice, .slice3, .sliceArray,
    .slice3Array, .sliceString, .recv, .len, .cap, .conv, .convNop, .convIface, .append,
    .arrayLit, .structLit, .mapLit, .ptrLit, .closure, .makeChan, .makeMap, .makeSlice,
    .new, .runesToString, .bytesToString, .stringToRunes, .stringToBytes, .runeToString,
    .concat, .add, .sub, .or, .xor, .mul, .div, .mod, .shl, .shr, .and, .andNot, .plus,
    .minus, .complement, .not, .eq, .ne, .lt, .le, .gt, .ge, .andAnd, .orOr]

def mnemonic : Op → String
  | .name => "NAME"
  | .literal => "LITERAL"
  | .restArg => "DDDARG"
  | .key => "KEY"
  | .block => "BLOCK"
  | .decl => "DCL"
  | .assign => "AS"
  | .assignOp => "ASOP"
  | .assignMany => "AS2"
  | .assignCall => "AS2FUNC"
  | .assignRecv => "AS2RECV"
  | .assignLookup => "AS2MAPR"
  | .assignAssert => "AS2DOTTYPE"
  | .ifStmt => "IF"
  | .forStmt => "FOR"
  | .rangeStmt => "RANGE"
  | .switchStmt => "SWITCH"
  | .typeGuard => "TYPESW"
  | .caseClause => "CASE"
  | .label => "LABEL"
  | .goto => "GOTO"
  | .breakStmt => "BREAK"
  | .continueStmt => "CONTINUE"
  | .returnStmt => "RETURN"
  | .deferStmt => "DEFER"
  | .goStmt => "PROC"
  | .send => "SEND"
  | .panicStmt => "PANIC"
  | .callFunc => "CALLFUNC"
  | .callMethod => "CALLMETH"
  | .callInterface => "CALLINTER"
  | .methodValue => "CALLPART"
  | .addr => "ADDR"
  | .deref => "IND"
  | .dot => "DOT"
  | .dotPtr => "DOTPTR"
  | .dotMethod => "DOTMETH"
  | .dotInterface => "DOTINTER"
  | .typeAssert => "DOTTYPE"
  | .typeAssertOk => "DOTTYPE2"
  | .index => "INDEX"
  | .indexMap => "INDEXMAP"
  | .slice => "SLICE"
  | .slice3 => "SLICE3"
  | .sliceArray => "SLICEARR"
  | .slice3Array => "SLICE3ARR"
  | .sliceString => "SLICESTR"
  | .recv => "RECV"
  | .len => "LEN"
  | .cap => "CAP"
  | .conv => "CONV"
  | .convNop => "CONVNOP"
  | .convIface => "CONVIFACE"
  | .append => "APPEND"
  | .arrayLit => "ARRAYLIT"
  | .structLit => "STRUCTLIT"
  | .mapLit => "MAPLIT"
  | .ptrLit => "PTRLIT"
  | .closure => "CLOSURE"
  | .makeChan => "MAKECHAN"
  | .makeMap => "MAKEMAP"
  | .makeSlice => "MAKESLICE"
  | .new => "NEW"
  | .runesToString => "ARRAYRUNESTR"
  | .bytesToString => "ARRAYBYTESTR"
  | .stringToRunes => "STRARRAYRUNE"
  | .stringToBytes => "STRARRAYBYTE"
  | .runeToString => "RUNESTR"
  | .concat => "ADDSTR"
  | .add => "ADD"
  | .sub => "SUB"
  | .or => "OR"
  | .xor => "XOR"
  | .mul => "MUL"
  | .div => "DIV"
  | .mod => "MOD"
  | .shl => "LSH"
  | .shr => "RSH"
  | .and => "AND"
  | .andNot => "ANDNOT"
  | .plus => "PLUS"
  | .minus => "MINUS"
  | .complement => "COM"
  | .not => "NOT"
  | .eq => "EQ"
  | .ne => "NE"
  | .lt => "LT"
  | .le => "LE"
  | .gt => "GT"
  | .ge => "GE"
  | .andAnd => "ANDAND"
  | .orOr => "OROR"

def ofMnemonic? (s : String) : Option Op := all.find? (·.mnemonic == s)

/-- How the operator is written in a program; its mnemonic if it has no sign. -/
def symbol (op : Op) : String :=
  match op with
  | .add | .plus | .concat => "+"
  | .sub | .minus => "-"
  | .or => "|"
  | .xor | .complement => "^"
  | .mul => "*"
  | .div => "/"
  | .mod => "%"
  | .shl => "<<"
  | .shr => ">>"
  | .and => "&"
  | .andNot => "&^"
  | .not => "!"
  | .eq => "=="
  | .ne => "!="
  | .lt => "<"
  | .le => "<="
  | .gt => ">"
  | .ge => ">="
  | .andAnd => "&&"
  | .orOr => "||"
  | op => op.mnemonic

def isCall : Op → Bool
  | .callFunc | .callMethod | .callInterface => true
  | _ => false

def isSlice : Op → Bool
  | .slice | .slice3 | .sliceArray | .slice3Array | .sliceString => true
  | _ => false

def isBinaryArith : Op → Bool
  | .add | .sub | .or | .xor | .mul | .div | .mod | .shl | .shr | .and | .andNot => true
  | _ => false

/-- Arithmetic and comparisons, which join two values. -/
def isBinary (op : Op) : Bool := op.isBinaryArith || op == .eq || op == .ne || op == .lt

/-- Arithmetic whose operands may be pointers in disguise. -/
def isArith (op : Op) : Bool :=
  op.isBinaryArith || op == .plus || op == .minus || op == .complement

def isLoop : Op → Bool
  | .forStmt | .rangeStmt => true
  | _ => false

end Op

end EscapeAnalysis
