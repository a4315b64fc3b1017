import EscapeAnalysis.Program.Dump
import EscapeAnalysis.Proofs.Groups.Callees

/-!
# Lines of dumps

A dump shows the statements of a function in order, the blocks of a statement one level deeper than the statement. Lines
are indented by how deep their statement is nested. There are 255 levels, and a function has no dump if a statement at
depth 255 has a block.

* `Program.AtDepth` : how deep a statement is nested, counted along the blocks that enclose it;
* `Program.Listed p d pieces lines` : how statements and their blocks are listed at depth `d`, without a bound;
* `stmtLines_eq` : a statement has a first line, and lines for its pieces;
* `blockLines_eq_none_iff` : the blocks that cannot be written;
* `exists_listed_block` : what is written for a block is its listing;
* `Listed.atDepth` : the lines of a listing belong to statements of their depth;
* `dump_indented` : the lines of a dump.
-/

namespace EscapeAnalysis

open Relation (TransGen)

/-! ## Lines -/

/-- What a line of a dump is for. -/
inductive LineKind where
  /-- The first line of a statement, and the only one if the statement has no blocks. -/
  | head
  | label
  /-- Between the two blocks of a condition. -/
  | alt
  /-- Before the block of a clause of a type switch. -/
  | clause
  /-- The closing brace. -/
  | close
deriving DecidableEq

/-- A line of a dump with the statement that it belongs to and how deep that is nested. -/
structure PlacedLine where
  owner : NodeId
  depth : Nat
  kind : LineKind
  text : String

/-- The text does not begin with a blank. -/
def Flush (text : String) : Prop := text.toList.head? ≠ some ' '

instance (text : String) : Decidable (Flush text) := inferInstanceAs (Decidable (_ ≠ _))

namespace PlacedLine

/-- By how many levels the line is indented. A label stands one level out. -/
def indent (l : PlacedLine) : Nat := if l.kind = .label then l.depth - 1 else l.depth

def render (l : PlacedLine) : String := String.ofList (List.replicate (4 * l.indent) ' ') ++ l.text ++ "\n"

/-- The line as a dump has it. -/
def dumpLine (l : PlacedLine) : DumpLine := ⟨l.indent, l.text⟩

end PlacedLine

/-! ## Statements and their blocks -/

/-- What is written for the statements of a block, and for a statement after its first line. -/
inductive Piece where
  | stmt (n : NodeId)
  | line (owner : NodeId) (kind : LineKind) (text : String)
  | block (stmts : List NodeId)

namespace Program

/-- What a statement has after its first line. -/
def pieces (p : Program) (n : NodeId) : List Piece :=
  let x := p.node n
  match x.op with
  | .ifStmt =>
    .block x.body :: (if x.alt.isEmpty then [] else [.line n .alt "\x7d else \x7b", .block x.alt]) ++
      [.line n .close "\x7d"]
  | .forStmt | .rangeStmt => [.block x.body, .line n .close "\x7d"]
  | .switchStmt =>
    (x.list.flatMap fun c => [.line n .clause (p.clauseHead (p.node c)), .block (p.node c).body]) ++
      [.line n .close "\x7d"]
  | .block => [.block x.list, .line n .close "\x7d"]
  | _ => []

/-- The blocks of a statement. -/
def blocks (p : Program) (n : NodeId) : List (List NodeId) :=
  let x := p.node n
  match x.op with
  | .ifStmt => x.body :: if x.alt.isEmpty then [] else [x.alt]
  | .forStmt | .rangeStmt => [x.body]
  | .switchStmt => x.list.map fun c => (p.node c).body
  | .block => [x.list]
  | _ => []

/-- How deep a statement is nested in the body: the statements of the body are at depth one, and those of the blocks of
a statement one deeper than the statement. -/
inductive AtDepth (p : Program) (body : List NodeId) : Nat → NodeId → Prop where
  | outer {n : NodeId} (h : n ∈ body) : AtDepth p body 1 n
  | inner {d : Nat} {n m : NodeId} {stmts : List NodeId} (h : AtDepth p body d n) (hstmts : stmts ∈ p.blocks n)
    (hm : m ∈ stmts) : AtDepth p body (d + 1) m

/-- The lines for some pieces at depth `d`, in order. -/
inductive Listed (p : Program) : Nat → List Piece → List PlacedLine → Prop where
  | nil {d : Nat} : Listed p d [] []
  | label {d : Nat} {n : NodeId} {rest : List Piece} {lines : List PlacedLine} (hop : (p.node n).op = .label)
    (h : Listed p d rest lines) :
    Listed p d (.stmt n :: rest) (⟨n, d, .label, p.headText n⟩ :: lines)
  | stmt {d : Nat} {n : NodeId} {rest : List Piece} {lines : List PlacedLine} (hop : (p.node n).op ≠ .label)
    (h : Listed p d (p.pieces n ++ rest) lines) : Listed p d (.stmt n :: rest) (⟨n, d, .head, p.headText n⟩ :: lines)
  | line {d : Nat} {owner : NodeId} {kind : LineKind} {text : String} {rest : List Piece} {lines : List PlacedLine}
    (hkind : kind ≠ .label) (h : Listed p d rest lines) :
    Listed p d (.line owner kind text :: rest) (⟨owner, d, kind, text⟩ :: lines)
  | block {d : Nat} {stmts : List NodeId} {rest : List Piece} {inner lines : List PlacedLine}
    (inside : Listed p (d + 1) (stmts.map .stmt) inner) (h : Listed p d rest lines) :
    Listed p d (.block stmts :: rest) (inner ++ lines)

variable {p : Program} {n m : NodeId} {d : Nat} {body : List NodeId}

theorem clauseHead_flush (p : Program) (clause : Node) : Flush (p.clauseHead clause) := by
  simp only [Flush, clauseHead]
  split <;> simp

/-- A statement has lines that begin with a fixed word, and its blocks. -/
theorem mem_pieces {x : Piece} (h : x ∈ p.pieces n) :
    (∃ kind text, x = .line n kind text ∧ kind ≠ .label ∧ Flush text) ∨ ∃ stmts ∈ p.blocks n, x = .block stmts := by
  have hbrace : Flush "\x7d" := by decide
  have helse : Flush "\x7d else \x7b" := by decide
  have hclause := p.clauseHead_flush
  simp only [pieces] at h
  split at h
  case h_6 => cases h
  case h_1 hop =>
    simp only [blocks, hop]
    split at h <;> grind
  all_goals
    rename_i hop
    simp only [blocks, hop]
    grind

theorem block_mem_pieces {stmts : List NodeId} (h : stmts ∈ p.blocks n) : .block stmts ∈ p.pieces n := by
  simp only [blocks] at h
  split at h
  case h_6 => cases h
  case h_1 hop =>
    simp only [pieces, hop]
    split at h <;> grind
  all_goals
    rename_i hop
    simp only [pieces, hop]
    grind

theorem atDepth_one : p.AtDepth body 1 n ↔ n ∈ body := by
  refine ⟨fun h => ?_, .outer⟩
  cases h with
  | outer h => exact h
  | inner h _ _ => cases h

/-- The first block on the way to a statement that is nested deeper. -/
theorem atDepth_succ_succ :
    p.AtDepth body (d + 2) m ↔ ∃ n ∈ body, ∃ stmts ∈ p.blocks n, p.AtDepth stmts (d + 1) m := by
  constructor
  · intro h
    induction d generalizing m with
    | zero =>
      cases h with
      | inner h hstmts hm => exact ⟨_, atDepth_one.1 h, _, hstmts, .outer hm⟩
    | succ d ih =>
      cases h with
      | inner h hstmts hm =>
        obtain ⟨n, hn, first, hfirst, hrest⟩ := ih h
        exact ⟨n, hn, first, hfirst, hrest.inner hstmts hm⟩
  · rintro ⟨n, hn, first, hfirst, h⟩
    have hfrom {d : Nat} {m : NodeId} (h : p.AtDepth first d m) : p.AtDepth body (d + 1) m := by
      induction h with
      | outer hm => exact (AtDepth.outer hn).inner hfirst hm
      | inner _ hstmts hm ih => exact ih.inner hstmts hm
    exact hfrom h

/-! ## What is written -/

section Written

variable (level : Nat) (block : List NodeId → Option (List DumpLine))

/-- The lines of a piece at a level, if its blocks can be written. -/
def pieceLines (p : Program) : Piece → Option (List DumpLine)
  | .stmt n => p.stmtLines level block n
  | .line _ _ text => some [⟨level, text⟩]
  | .block stmts => block stmts

/-- The lines of some pieces. -/
def written (p : Program) : List Piece → Option (List DumpLine)
  | [] => some []
  | x :: rest => do
    let lines ← p.pieceLines level block x
    let others ← written p rest
    return lines ++ others

variable {level block}

theorem written_append (xs ys : List Piece) : p.written level block (xs ++ ys) = (do
    let lines ← p.written level block xs
    let others ← p.written level block ys
    return lines ++ others) := by
  induction xs with
  | nil => simp [written]
  | cons x xs ih =>
    rw [List.cons_append, written, written, ih]
    cases p.pieceLines level block x <;> cases p.written level block xs <;> cases p.written level block ys <;> simp

/-- Clauses are written one after the other. -/
theorem written_clauses (n : NodeId) (clauses : List NodeId) :
    p.written level block (clauses.flatMap fun c => [.line n .clause (p.clauseHead (p.node c)), .block (p.node c).body]) =
      List.flatten <$> clauses.mapM fun c => (⟨level, p.clauseHead (p.node c)⟩ :: ·) <$> block (p.node c).body := by
  induction clauses with
  | nil => rfl
  | cons c clauses ih =>
    rw [List.flatMap_cons, written_append, ih, List.mapM_cons]
    cases h : block (p.node c).body <;> simp [written, pieceLines, h, Option.map_bind, Option.bind_map, Function.comp_def]

theorem stmtLines_eq (hop : (p.node n).op ≠ .label) :
    p.stmtLines level block n = (⟨level, p.headText n⟩ :: ·) <$> p.written level block (p.pieces n) := by
  unfold pieces
  simp only [stmtLines]
  generalize (p.node n).op = op at hop ⊢
  cases op with
  | label => exact absurd rfl hop
  | ifStmt =>
    cases (p.node n).alt.isEmpty <;>
      simp [written, pieceLines, Option.map_bind, Option.bind_map, Option.bind_assoc, Function.comp_def]
  | switchStmt =>
    simp [written_append, written_clauses, written, pieceLines, Option.map_bind, Option.bind_map, Function.comp_def]
  | _ => simp [written, pieceLines, Option.map_bind, Function.comp_def]

theorem written_eq_none_iff {xs : List Piece} :
    p.written level block xs = none ↔ ∃ x ∈ xs, p.pieceLines level block x = none := by
  induction xs with
  | nil => simp [written]
  | cons x xs ih =>
    rw [List.exists_mem_cons_iff, ← ih, written]
    cases p.pieceLines level block x <;> cases p.written level block xs <;> simp

/-- A statement can be written if its blocks can. -/
theorem stmtLines_eq_none_iff : p.stmtLines level block n = none ↔ ∃ stmts ∈ p.blocks n, block stmts = none := by
  by_cases hop : (p.node n).op = .label
  · simp [stmtLines, blocks, hop]
  · rw [stmtLines_eq hop, Option.map_eq_map, Option.map_eq_none_iff, written_eq_none_iff]
    constructor
    · rintro ⟨x, hx, hnone⟩
      rcases mem_pieces hx with ⟨kind, text, rfl, _⟩ | ⟨stmts, hstmts, rfl⟩
      · cases hnone
      · exact ⟨stmts, hstmts, hnone⟩
    · rintro ⟨stmts, hstmts, hnone⟩
      exact ⟨_, block_mem_pieces hstmts, hnone⟩

end Written

theorem blockLines_succ (room : Nat) (stmts : List NodeId) : p.blockLines (room + 1) stmts =
    p.written (DumpLine.maxLevel - room) (p.blockLines room) (stmts.map .stmt) := by
  rw [blockLines]
  induction stmts with
  | nil => rfl
  | cons n stmts ih =>
    rw [List.map_cons, written, ← ih, List.mapM_cons]
    simp [pieceLines, Option.map_bind, Option.bind_map, Function.comp_def]

/-- A block cannot be written if the levels that are left do not reach to the blocks in it. -/
theorem blockLines_eq_none_iff {room : Nat} {stmts : List NodeId} :
    p.blockLines (room + 1) stmts = none ↔ ∃ n, p.AtDepth stmts (room + 1) n ∧ p.blocks n ≠ [] := by
  have hstep (room : Nat) (stmts : List NodeId) : p.blockLines (room + 1) stmts = none ↔
      ∃ n ∈ stmts, ∃ inner ∈ p.blocks n, p.blockLines room inner = none := by
    simp [blockLines_succ, written_eq_none_iff, pieceLines, stmtLines_eq_none_iff]
  induction room generalizing stmts with
  | zero =>
    rw [hstep]
    refine exists_congr fun n => and_congr atDepth_one.symm ?_
    exact ⟨fun ⟨_, hinner, _⟩ => List.ne_nil_of_mem hinner,
      fun hne => (List.exists_mem_of_ne_nil _ hne).imp fun _ hinner => ⟨hinner, rfl⟩⟩
  | succ room ih =>
    simp only [hstep (room + 1), ih, atDepth_succ_succ]
    grind

/-! ## Listings -/

theorem Listed.append {xs ys : List Piece} {lines lines' : List PlacedLine} (h : p.Listed d xs lines)
    (h' : p.Listed d ys lines') : p.Listed d (xs ++ ys) (lines ++ lines') := by
  induction h with
  | nil => exact h'
  | label hop _ ih => exact .label hop (ih h')
  | stmt hop _ ih =>
    have hrest := ih h'
    rw [List.append_assoc] at hrest
    exact .stmt hop hrest
  | line hkind _ ih => exact .line hkind (ih h')
  | block inside _ _ ih =>
    rw [List.append_assoc]
    exact .block inside (ih h')

/-- Pieces are listed one after the other. -/
theorem exists_listed_pieces {level : Nat} {block : List NodeId → Option (List DumpLine)} {xs : List Piece}
    (h : ∀ x ∈ xs, ∀ lines, p.pieceLines level block x = some lines →
      ∃ placed, p.Listed d [x] placed ∧ lines = placed.map PlacedLine.dumpLine)
    {lines : List DumpLine} (hlines : p.written level block xs = some lines) :
    ∃ placed, p.Listed d xs placed ∧ lines = placed.map PlacedLine.dumpLine := by
  induction xs generalizing lines with
  | nil =>
    cases hlines
    exact ⟨[], .nil, rfl⟩
  | cons x xs ih =>
    obtain ⟨hx, hxs⟩ := List.forall_mem_cons.1 h
    simp only [written, Option.bind_eq_bind, Option.bind_eq_some_iff] at hlines
    obtain ⟨first, hfirst, others, hothers, hlines⟩ := hlines
    cases hlines
    obtain ⟨placed, hplaced, rfl⟩ := hx first hfirst
    obtain ⟨placed', hplaced', rfl⟩ := ih hxs hothers
    exact ⟨placed ++ placed', hplaced.append hplaced', List.map_append.symm⟩

/-- What is written for a statement is its listing, if that is so for its blocks. -/
theorem exists_listed_stmt {block : List NodeId → Option (List DumpLine)}
    (hblock : ∀ stmts lines, block stmts = some lines →
      ∃ placed, p.Listed (d + 1) (stmts.map .stmt) placed ∧ lines = placed.map PlacedLine.dumpLine)
    {lines : List DumpLine} (hlines : p.stmtLines d block n = some lines) :
    ∃ placed, p.Listed d [.stmt n] placed ∧ lines = placed.map PlacedLine.dumpLine := by
  by_cases hop : (p.node n).op = .label
  · simp only [stmtLines, hop] at hlines
    cases hlines
    exact ⟨_, .label hop .nil, rfl⟩
  · rw [stmtLines_eq hop, Option.map_eq_map, Option.map_eq_some_iff] at hlines
    obtain ⟨rest, hrest, rfl⟩ := hlines
    have hpieces : ∃ placed, p.Listed d (p.pieces n) placed ∧ rest = placed.map PlacedLine.dumpLine := by
      refine exists_listed_pieces (fun x hx lines hlines => ?_) hrest
      rcases mem_pieces hx with ⟨kind, text, rfl, hkind, _⟩ | ⟨stmts, hstmts, rfl⟩
      · cases hlines
        exact ⟨_, .line hkind .nil, by simp [PlacedLine.dumpLine, PlacedLine.indent, hkind]⟩
      · obtain ⟨placed, hplaced, rfl⟩ := hblock stmts lines hlines
        exact ⟨placed ++ [], .block hplaced .nil, by rw [List.append_nil]⟩
    obtain ⟨placed, hplaced, rfl⟩ := hpieces
    exact ⟨⟨n, d, .head, p.headText n⟩ :: placed, .stmt hop (by rwa [List.append_nil]), rfl⟩

/-- What is written for a block is the listing of its statements, at the first level that is left. -/
theorem exists_listed_block {room : Nat} (hroom : room ≤ DumpLine.maxLevel) {stmts : List NodeId}
    {lines : List DumpLine} (hlines : p.blockLines room stmts = some lines) :
    ∃ placed, p.Listed (DumpLine.maxLevel + 1 - room) (stmts.map .stmt) placed ∧
      lines = placed.map PlacedLine.dumpLine := by
  induction room generalizing stmts lines with
  | zero => cases hlines
  | succ room ih =>
    have hlevel : DumpLine.maxLevel + 1 - (room + 1) = DumpLine.maxLevel - room := Nat.succ_sub_succ ..
    have hinner : DumpLine.maxLevel - room + 1 = DumpLine.maxLevel + 1 - room := by omega
    rw [hlevel]
    rw [blockLines_succ] at hlines
    refine exists_listed_pieces (fun x hx lines hlines => ?_) hlines
    obtain ⟨n, _, rfl⟩ := List.mem_map.1 hx
    refine exists_listed_stmt (fun stmts lines hlines => ?_) hlines
    rw [hinner]
    exact ih (Nat.le_of_succ_le hroom) hlines

/-! ## Depths of the lines -/

/-- The statements that a piece at depth `d` shows are nested so deep, and its lines begin with no blank of their own. -/
def PieceAtDepth (p : Program) (body : List NodeId) (d : Nat) : Piece → Prop
  | .stmt n => p.AtDepth body d n
  | .line owner _ text => p.AtDepth body d owner ∧ Flush text
  | .block stmts => ∀ m ∈ stmts, p.AtDepth body (d + 1) m

theorem AtDepth.pieces {body : List NodeId} (h : p.AtDepth body d n) : ∀ x ∈ p.pieces n, p.PieceAtDepth body d x := by
  intro x hx
  rcases mem_pieces hx with ⟨kind, text, rfl, _, hflush⟩ | ⟨stmts, hstmts, rfl⟩
  · exact ⟨h, hflush⟩
  · intro m hm
    exact h.inner hstmts hm

theorem Listed.atDepth {body : List NodeId} {xs : List Piece} {lines : List PlacedLine} (h : p.Listed d xs lines)
    (hxs : ∀ x ∈ xs, p.PieceAtDepth body d x) :
    ∀ l ∈ lines, p.AtDepth body l.depth l.owner ∧ (l.kind ≠ .head → l.kind ≠ .label → Flush l.text) := by
  induction h with
  | nil => exact List.forall_mem_nil _
  | label _ _ ih =>
    obtain ⟨hx, hxs⟩ := List.forall_mem_cons.1 hxs
    exact List.forall_mem_cons.2 ⟨⟨hx, fun _ hne => absurd rfl hne⟩, ih hxs⟩
  | line _ _ ih =>
    obtain ⟨⟨hx, hflush⟩, hxs⟩ := List.forall_mem_cons.1 hxs
    exact List.forall_mem_cons.2 ⟨⟨hx, fun _ _ => hflush⟩, ih hxs⟩
  | stmt _ _ ih =>
    obtain ⟨hx, hxs⟩ := List.forall_mem_cons.1 hxs
    have hpieces := List.forall_mem_append.2 ⟨AtDepth.pieces hx, hxs⟩
    exact List.forall_mem_cons.2 ⟨⟨hx, fun hne => absurd rfl hne⟩, ih hpieces⟩
  | block _ _ ihinner ih =>
    obtain ⟨hx, hxs⟩ := List.forall_mem_cons.1 hxs
    refine List.forall_mem_append.2 ⟨ihinner ?_, ih hxs⟩
    intro x hx'
    obtain ⟨m, hm, rfl⟩ := List.mem_map.1 hx'
    exact hx m hm

end Program

/-- A function has a dump unless a statement at depth 255 has a block, even an empty one: there are no more levels then.
The dump lists all statements of the function and the lines of their blocks. Every line belongs to a statement, and is
indented by four blanks for each level of the depth of the statement, a label by four blanks less. Lines between and
after the blocks of a statement have no blanks of their own. -/
theorem dump_indented {p : Program} {f : FuncId} {body : List NodeId} (hbody : (p.func f).body = some body) :
    (p.dump f = none ↔ ∃ n, p.AtDepth body 255 n ∧ p.blocks n ≠ []) ∧
    ∀ text, p.dump f = some text → ∃ lines : List PlacedLine,
      p.Listed 1 (body.map .stmt) lines ∧
      text = p.signatureText (p.func f) ++ " \x7b\n" ++ String.join (lines.map PlacedLine.render) ++ "\x7d\n" ∧
      ∀ l ∈ lines, p.AtDepth body l.depth l.owner ∧
        l.render = String.ofList (List.replicate (4 * if l.kind = .label then l.depth - 1 else l.depth) ' ') ++
          l.text ++ "\n" ∧
        (l.kind ≠ .head → l.kind ≠ .label → Flush l.text) := by
  have hdump : p.dump f = (p.blockLines DumpLine.maxLevel body).map fun lines =>
      p.signatureText (p.func f) ++ " \x7b\n" ++ String.join (lines.map DumpLine.render) ++ "\x7d\n" := by
    simp only [Program.dump, hbody]
    cases p.blockLines DumpLine.maxLevel body <;> rfl
  rw [hdump, Option.map_eq_none_iff]
  refine ⟨Program.blockLines_eq_none_iff, fun text htext => ?_⟩
  obtain ⟨lines, hlines, rfl⟩ := Option.map_eq_some_iff.1 htext
  obtain ⟨placed, hplaced, rfl⟩ := Program.exists_listed_block (Nat.le_refl _) hlines
  have houter : ∀ x ∈ body.map Piece.stmt, p.PieceAtDepth body 1 x := by
    intro x hx
    obtain ⟨n, hn, rfl⟩ := List.mem_map.1 hx
    exact .outer hn
  refine ⟨placed, hplaced, ?_, fun l hl => ?_⟩
  · rw [List.map_map]
    rfl
  · obtain ⟨hatDepth, hflush⟩ := hplaced.atDepth houter l hl
    exact ⟨hatDepth, rfl, hflush⟩

/-- `func f() { if ? { for { again: break } } else { continue } }`. -/
def nestedProgram : Program where
  nodes := #[{ op := .breakStmt }, { op := .label, label := some ⟨0⟩ }, { op := .forStmt, body := [⟨1⟩, ⟨0⟩] },
    { op := .continueStmt }, { op := .ifStmt, body := [⟨2⟩], alt := [⟨3⟩] }]
  funcs := #[{ name := "f", body := some [⟨4⟩] }]
  labels := #[{ name := "again" }]

/-- The label is nested at depth three and stands at the second level. -/
theorem dump_indented_nestedProgram :
    nestedProgram.dump ⟨0⟩ = some ("func f() \x7b\n    if ? \x7b\n        for \x7b\n        again:\n            break\n" ++
      "        \x7d\n    \x7d else \x7b\n        continue\n    \x7d\n\x7d\n") ∧
    (¬ ∃ n, nestedProgram.AtDepth [⟨4⟩] 255 n ∧ nestedProgram.blocks n ≠ []) ∧
    ∃ lines : List PlacedLine,
      nestedProgram.Listed 1 [.stmt ⟨4⟩] lines ∧
      nestedProgram.dump ⟨0⟩ = some ("func f() \x7b\n" ++ String.join (lines.map PlacedLine.render) ++ "\x7d\n") ∧
      ∀ l ∈ lines, nestedProgram.AtDepth [⟨4⟩] l.depth l.owner := by
  have hdump : nestedProgram.dump ⟨0⟩ =
      some ("func f() \x7b\n    if ? \x7b\n        for \x7b\n        again:\n            break\n" ++
        "        \x7d\n    \x7d else \x7b\n        continue\n    \x7d\n\x7d\n") := by decide +kernel
  obtain ⟨hnone, hsome⟩ := dump_indented (p := nestedProgram) (f := ⟨0⟩) rfl
  obtain ⟨lines, hlines, htext, hdepth⟩ := hsome _ hdump
  rw [hdump] at hnone
  exact ⟨hdump, fun h => Option.some_ne_none _ (hnone.2 h), lines, hlines, htext ▸ hdump, fun l hl => (hdepth l hl).1⟩

/-! ## Deeper than the counter -/

/-- A statement in blocks, the node of each block after the one of what it holds. -/
def deepNode (i : Nat) : Node := if i = 0 then { op := .breakStmt } else { op := .block, list := [⟨i - 1⟩] }

/-- A function with a statement in `k` blocks. -/
def deepProgram (k : Nat) : Program where
  nodes := (Array.range (k + 1)).map deepNode
  funcs := #[{ name := "f", body := some [⟨k⟩] }]

section Deep

variable {k i : Nat}

theorem node_deepProgram (h : i ≤ k) : (deepProgram k).node ⟨i⟩ = deepNode i := by
  simp [Program.node, deepProgram, Array.getD_eq_getD_getElem?, Nat.lt_succ_of_le h]

theorem older_deepProgram : ∀ i < (deepProgram k).nodes.size, ∀ m ∈ ((deepProgram k).node ⟨i⟩).children, m.index < i := by
  intro i hi m hm
  have hi : i < k + 1 := by simpa [deepProgram] using hi
  rw [node_deepProgram (Nat.le_of_lt_succ hi)] at hm
  cases i with
  | zero => simp [deepNode, Node.children] at hm
  | succ i =>
    have hm : m = ⟨i⟩ := by simpa [deepNode, Node.children] using hm
    rw [hm]
    exact Nat.lt_succ_self i

theorem blocks_deepProgram (h : i + 1 ≤ k) : (deepProgram k).blocks ⟨i + 1⟩ = [[⟨i⟩]] := by
  simp [Program.blocks, node_deepProgram h, deepNode]

theorem atDepth_deepProgram (h : i ≤ k) : (deepProgram k).AtDepth [⟨k⟩] (i + 1) ⟨k - i⟩ := by
  induction i with
  | zero => exact .outer List.mem_cons_self
  | succ i ih =>
    have hblocks := blocks_deepProgram (k := k) (i := k - (i + 1)) (by omega)
    rw [show k - (i + 1) + 1 = k - i by omega] at hblocks
    exact (ih (by omega)).inner (hblocks ▸ List.mem_cons_self) List.mem_cons_self

end Deep

/-- In 255 blocks the innermost statement is at depth 256, and the function has no dump. -/
theorem deep_statement_not_dumped :
    (∀ n, (deepProgram 255).Below ⟨0⟩ n → ¬ TransGen (deepProgram 255).Part n n) ∧
    ((deepProgram 255).func ⟨0⟩).body = some [⟨255⟩] ∧ (deepProgram 255).AtDepth [⟨255⟩] 256 ⟨0⟩ ∧
    (deepProgram 255).dump ⟨0⟩ = none := by
  refine ⟨fun n hn => Program.acyclic_of_older older_deepProgram ⟨0⟩ n hn, rfl,
    atDepth_deepProgram (k := 255) (i := 255) (Nat.le_refl 255), ?_⟩
  have hblocks : (deepProgram 255).blocks ⟨1⟩ ≠ [] := by
    rw [blocks_deepProgram (i := 0) (by decide)]
    exact List.cons_ne_nil _ _
  have hlines : (deepProgram 255).blockLines DumpLine.maxLevel [⟨255⟩] = none :=
    Program.blockLines_eq_none_iff.2 ⟨⟨1⟩, atDepth_deepProgram (k := 255) (i := 254) (by decide), hblocks⟩
  change ((deepProgram 255).blockLines DumpLine.maxLevel [⟨255⟩]).bind _ = none
  rw [hlines]
  rfl

end EscapeAnalysis
