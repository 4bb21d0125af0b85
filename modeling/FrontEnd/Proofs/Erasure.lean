import FrontEnd.Tree.Printer

/-! Trees without their spans. Two trees that differ in spans only have the same erasure, and they
are printed alike. -/
namespace FrontEnd

namespace Ident

def erase (ident : Ident) : Ident :=
  { ident with span := .zero }

end Ident

namespace Literal

def erase (literal : Literal) : Literal :=
  { literal with span := .zero }

end Literal

namespace Operator

def erase (operator : Operator) : Operator :=
  { operator with span := .zero }

end Operator

mutual

def Path.erase : Path → Path
  | ⟨segment, target, localName, _⟩ =>
    ⟨segment.erase, target.erase, localName.map Ident.erase, .zero⟩

def PathTarget.erase : PathTarget → PathTarget
  | .leaf => .leaf
  | .item item => .item item.erase
  | .nested next => .nested next.erase
  | .wildcard _ => .wildcard .zero
  | .group entries => .group (Path.eraseEntries entries)

def Path.eraseEntries : List Path → List Path
  | [] => []
  | entry :: entries => entry.erase :: Path.eraseEntries entries

end

mutual

def Expr.erase : Expr → Expr
  | .literal l => .literal l.erase
  | .ident x => .ident x.erase
  | .binary left op right _ => .binary left.erase op.erase right.erase .zero
  | .unary op e _ => .unary op.erase e.erase .zero
  | .block b => .block b.erase
  | .function kind name params body _ =>
    .function kind (name.map Ident.erase) (params.map Ident.erase) body.erase .zero
  | .call callee args _ => .call callee.erase (Tree.eraseExprs args) .zero
  | .callValue callee args _ => .callValue callee.erase (Tree.eraseExprs args) .zero
  | .tuple elements _ => .tuple (Tree.eraseExprs elements) .zero
  | .path p => .path p.erase

def Tree.eraseExprs : List Expr → List Expr
  | [] => []
  | e :: es => e.erase :: Tree.eraseExprs es

def Block.erase : Block → Block
  | ⟨stmts, tail, _⟩ => ⟨Tree.eraseStmts stmts, Tree.eraseTail tail, .zero⟩

def Tree.eraseTail : Option Expr → Option Expr
  | none => none
  | some value => some value.erase

def Tree.eraseStmts : List Stmt → List Stmt
  | [] => []
  | s :: ss => s.erase :: Tree.eraseStmts ss

def Stmt.erase : Stmt → Stmt
  | .expr e _ => .expr e.erase .zero
  | .binding mutable name value _ => .binding mutable name.erase value.erase .zero
  | .function kind name params body _ =>
    .function kind name.erase (params.map Ident.erase) body.erase .zero
  | .returning value _ => .returning value.erase .zero
  | .importResource resource localName _ =>
    .importResource resource.erase localName.erase .zero
  | .importPath p _ => .importPath p.erase .zero

end

namespace Program

def erase (program : Program) : Program :=
  ⟨Tree.eraseStmts program.body, .zero⟩

end Program

@[simp] theorem Ident.piece_erase (x : Ident) : x.erase.piece = x.piece := rfl

@[simp] theorem Ident.listPieces_erase (xs : List Ident) :
    Ident.listPieces (xs.map Ident.erase) = Ident.listPieces xs := by
  simp [Ident.listPieces, Function.comp_def]

@[simp] theorem Literal.piece_erase (l : Literal) : l.erase.piece = l.piece := rfl

@[simp] theorem Operator.operation_erase (op : Operator) : op.erase.operation = op.operation := rfl

@[simp] theorem Path.aliasPieces_erase (x : Option Ident) :
    Path.aliasPieces (x.map Ident.erase) = Path.aliasPieces x := by
  cases x <;> rfl

mutual

@[simp] theorem Path.pieces_erase (p : Path) : p.erase.pieces = p.pieces := by
  obtain ⟨segment, target, localName, span⟩ := p
  simp [Path.erase, Path.pieces, Path.targetPieces_erase target]

theorem Path.targetPieces_erase (target : PathTarget) :
    Path.targetPieces target.erase = Path.targetPieces target := by
  cases target with
  | leaf => rfl
  | item x => rfl
  | nested next => simp [PathTarget.erase, Path.targetPieces, Path.pieces_erase next]
  | wildcard span => rfl
  | group entries =>
    simp [PathTarget.erase, Path.targetPieces, Path.entryPieces_erase entries]

theorem Path.entryPieces_erase (entries : List Path) :
    Path.entryPieces (Path.eraseEntries entries) = Path.entryPieces entries := by
  cases entries with
  | nil => rfl
  | cons entry entries =>
    simp [Path.eraseEntries, Path.entryPieces, Path.pieces_erase entry,
      Path.entryPieces_erase entries]

end

namespace Expr

@[simp] theorem precedence_erase (e : Expr) : e.erase.precedence = e.precedence := by
  cases e <;> simp [erase, precedence]

@[simp] theorem kind_erase (e : Expr) : e.erase.kind = e.kind := by
  cases e <;> simp [erase, kind]

@[simp] theorem headerPieces_erase (kind : FunctionKind) (name : Option Ident)
    (params : List Ident) :
    headerPieces kind (name.map Ident.erase) (params.map Ident.erase) =
      headerPieces kind name params := by
  cases name <;> simp [headerPieces]

end Expr

namespace Tree

mutual

@[simp] theorem exprPieces_erase (e : Expr) : exprPieces e.erase = exprPieces e := by
  cases e with
  | literal l => rfl
  | ident x => rfl
  | binary left op right span =>
    simp [Expr.erase, exprPieces, exprPieces_erase left, exprPieces_erase right, Expr.leftNeeds,
      Expr.rightNeeds]
  | unary op e span =>
    simp [Expr.erase, exprPieces, exprPieces_erase e, Expr.operandNeeds]
  | block b => simp [Expr.erase, exprPieces, blockPieces_erase b]
  | function kind name params body span =>
    simp [Expr.erase, exprPieces, exprPieces_erase body]
  | call callee args span => simp [Expr.erase, exprPieces, exprListPieces_erase args]
  | callValue callee args span =>
    simp [Expr.erase, exprPieces, exprPieces_erase callee, exprListPieces_erase args,
      Expr.calleeNeeds]
  | tuple elements span => simp [Expr.erase, exprPieces, exprListPieces_erase elements]
  | path p => simp [Expr.erase, exprPieces]

theorem exprListPieces_erase (es : List Expr) :
    exprListPieces (eraseExprs es) = exprListPieces es := by
  cases es with
  | nil => rfl
  | cons e es =>
    simp [eraseExprs, exprListPieces, exprPieces_erase e, exprListPieces_erase es]

theorem blockPieces_erase (b : Block) : blockPieces b.erase = blockPieces b := by
  obtain ⟨stmts, tail, span⟩ := b
  simp [Block.erase, blockPieces, stmtListPieces_erase stmts, tailPieces_erase tail]

theorem tailPieces_erase (tail : Option Expr) : tailPieces (eraseTail tail) = tailPieces tail := by
  cases tail with
  | none => rfl
  | some value => simp [eraseTail, tailPieces, exprPieces_erase value]

theorem stmtListPieces_erase (stmts : List Stmt) :
    stmtListPieces (eraseStmts stmts) = stmtListPieces stmts := by
  cases stmts with
  | nil => rfl
  | cons s ss =>
    simp [eraseStmts, stmtListPieces, stmtPieces_erase s, stmtListPieces_erase ss]

theorem stmtPieces_erase (s : Stmt) : stmtPieces s.erase = stmtPieces s := by
  cases s with
  | expr e span => simp [Stmt.erase, stmtPieces, exprPieces_erase e]
  | binding mutable name value span => simp [Stmt.erase, stmtPieces, exprPieces_erase value]
  | function kind name params body span =>
    have hname : some name.erase = (some name).map Ident.erase := rfl
    simp only [Stmt.erase, stmtPieces, blockPieces_erase body, hname, Expr.headerPieces_erase]
  | returning value span => simp [Stmt.erase, stmtPieces, exprPieces_erase value]
  | importResource resource localName span => rfl
  | importPath p span => simp [Stmt.erase, stmtPieces]

end

end Tree

/-- Spans do not show in the printed text. -/
theorem Program.print_eq_of_erase_eq {p q : Program} (h : p.erase = q.erase) :
    p.print = q.print := by
  have hpieces : ∀ p : Program, p.erase.pieces = p.pieces := by
    intro p
    simp [Program.erase, Program.pieces, Tree.stmtListPieces_erase]
  unfold Program.print
  rw [← hpieces p, ← hpieces q, h]

end FrontEnd
