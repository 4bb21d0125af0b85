import FrontEnd.Proofs.Erasure
import FrontEnd.Tree.Outline

/-! What outlines do not show. Spans are left out, and a name or an alias that was left out is
marked as a name is that is written like the mark. -/
namespace FrontEnd

namespace Ident

/-- The name is written like the mark for a name that was left out. -/
def isHole (x : Ident) : Bool :=
  x.name == Outline.optional none

def dropHole : Option Ident → Option Ident
  | none => none
  | some x => if x.isHole then none else some x

@[simp] theorem optional_dropHole (name : Option Ident) :
    Outline.optional (dropHole name) = Outline.optional name := by
  cases name with
  | none => rfl
  | some x =>
    rw [dropHole]
    split
    · rename_i hx
      exact (beq_iff_eq.mp hx).symm
    · rfl

/-- Names that show alike differ in spans and in holes only. -/
theorem dropHole_eq_of_optional_eq {name name' : Option Ident}
    (h : Outline.optional name = Outline.optional name') :
    (dropHole name).map (·.name) = (dropHole name').map (·.name) := by
  have hshown : ∀ name : Option Ident, (dropHole name).map (·.name) =
      if Outline.optional name == Outline.optional none then none
      else some (Outline.optional name) := by
    intro name
    cases name with
    | none => rfl
    | some x =>
      rw [dropHole, isHole, Outline.optional]
      split <;> rfl
  rw [hshown, hshown, h]

end Ident

mutual

/-- The path without aliases that are holes. -/
def Path.dropHoles : Path → Path
  | ⟨segment, target, localName, span⟩ =>
    ⟨segment, target.dropHoles, Ident.dropHole localName, span⟩

def PathTarget.dropHoles : PathTarget → PathTarget
  | .leaf => .leaf
  | .item item => .item item
  | .nested next => .nested next.dropHoles
  | .wildcard span => .wildcard span
  | .group entries => .group (Path.dropHolesEntries entries)

def Path.dropHolesEntries : List Path → List Path
  | [] => []
  | entry :: entries => entry.dropHoles :: Path.dropHolesEntries entries

end

mutual

/-- The expression without names of functions that are holes. -/
def Expr.dropHoles : Expr → Expr
  | .literal l => .literal l
  | .ident x => .ident x
  | .binary left op right span => .binary left.dropHoles op right.dropHoles span
  | .unary op e span => .unary op e.dropHoles span
  | .block b => .block b.dropHoles
  | .function kind name params body span =>
    .function kind (Ident.dropHole name) params body.dropHoles span
  | .call callee args span => .call callee (Tree.dropHolesExprs args) span
  | .callValue callee args span => .callValue callee.dropHoles (Tree.dropHolesExprs args) span
  | .tuple elements span => .tuple (Tree.dropHolesExprs elements) span
  | .path p => .path p.dropHoles

def Tree.dropHolesExprs : List Expr → List Expr
  | [] => []
  | e :: es => e.dropHoles :: Tree.dropHolesExprs es

def Block.dropHoles : Block → Block
  | ⟨stmts, tail, span⟩ => ⟨Tree.dropHolesStmts stmts, Tree.dropHolesTail tail, span⟩

def Tree.dropHolesTail : Option Expr → Option Expr
  | none => none
  | some value => some value.dropHoles

def Tree.dropHolesStmts : List Stmt → List Stmt
  | [] => []
  | s :: ss => s.dropHoles :: Tree.dropHolesStmts ss

def Stmt.dropHoles : Stmt → Stmt
  | .expr e span => .expr e.dropHoles span
  | .binding mutable name value span => .binding mutable name value.dropHoles span
  | .function kind name params body span => .function kind name params body.dropHoles span
  | .returning value span => .returning value.dropHoles span
  | .importResource resource localName span => .importResource resource localName span
  | .importPath p span => .importPath p.dropHoles span

end

namespace Program

/-- The program without names of functions and aliases of paths that are holes. -/
def dropHoles (program : Program) : Program :=
  { program with body := Tree.dropHolesStmts program.body }

end Program

namespace Outline

/-! ## Outlines without spans and holes -/

@[simp] theorem optional_erase (name : Option Ident) :
    optional (name.map Ident.erase) = optional name := by
  cases name <;> rfl

@[simp] theorem names_erase (xs : List Ident) : names (xs.map Ident.erase) = names xs := by
  simp [names, Function.comp_def, Ident.erase]

mutual

@[simp] theorem path_erase (p : Path) : path p.erase = path p := by
  obtain ⟨segment, target, localName, span⟩ := p
  simp [Path.erase, path, pathTarget_erase target, Ident.erase]

theorem pathTarget_erase (target : PathTarget) : pathTarget target.erase = pathTarget target := by
  cases target with
  | leaf => rfl
  | item x => rfl
  | nested next => simp [PathTarget.erase, pathTarget, path_erase next]
  | wildcard span => rfl
  | group entries => simp [PathTarget.erase, pathTarget, paths_erase entries]

theorem paths_erase (entries : List Path) : paths (Path.eraseEntries entries) = paths entries := by
  cases entries with
  | nil => rfl
  | cons entry entries =>
    simp [Path.eraseEntries, paths, path_erase entry, paths_erase entries]

end

mutual

@[simp] theorem path_dropHoles (p : Path) : path p.dropHoles = path p := by
  obtain ⟨segment, target, localName, span⟩ := p
  simp [Path.dropHoles, path, pathTarget_dropHoles target]

theorem pathTarget_dropHoles (target : PathTarget) :
    pathTarget target.dropHoles = pathTarget target := by
  cases target with
  | leaf => rfl
  | item x => rfl
  | nested next => simp [PathTarget.dropHoles, pathTarget, path_dropHoles next]
  | wildcard span => rfl
  | group entries => simp [PathTarget.dropHoles, pathTarget, paths_dropHoles entries]

theorem paths_dropHoles (entries : List Path) :
    paths (Path.dropHolesEntries entries) = paths entries := by
  cases entries with
  | nil => rfl
  | cons entry entries =>
    simp [Path.dropHolesEntries, paths, path_dropHoles entry, paths_dropHoles entries]

end

mutual

@[simp] theorem expr_erase (e : Expr) : expr e.erase = expr e := by
  cases e with
  | literal l => rfl
  | ident x => rfl
  | binary left op right span => simp [Expr.erase, expr, expr_erase left, expr_erase right]
  | unary op e span => simp [Expr.erase, expr, expr_erase e]
  | block b => simp [Expr.erase, expr, block_erase b]
  | function kind name params body span => simp [Expr.erase, expr, expr_erase body]
  | call callee args span => simp [Expr.erase, expr, exprs_erase args, Ident.erase]
  | callValue callee args span => simp [Expr.erase, expr, expr_erase callee, exprs_erase args]
  | tuple elements span => simp [Expr.erase, expr, exprs_erase elements]
  | path p => simp [Expr.erase, expr]

theorem exprs_erase (es : List Expr) : exprs (Tree.eraseExprs es) = exprs es := by
  cases es with
  | nil => rfl
  | cons e es => simp [Tree.eraseExprs, exprs, expr_erase e, exprs_erase es]

theorem block_erase (b : Block) : block b.erase = block b := by
  obtain ⟨body, value, span⟩ := b
  have htail : (Tree.eraseTail value).isSome = value.isSome := by cases value <;> rfl
  simp [Block.erase, block, stmts_erase body, tail_erase value, htail]

theorem tail_erase (value : Option Expr) : tail (Tree.eraseTail value) = tail value := by
  cases value with
  | none => rfl
  | some value => simp [Tree.eraseTail, tail, expr_erase value]

theorem stmts_erase (ss : List Stmt) : stmts (Tree.eraseStmts ss) = stmts ss := by
  cases ss with
  | nil => rfl
  | cons s ss => simp [Tree.eraseStmts, stmts, stmt_erase s, stmts_erase ss]

theorem stmt_erase (s : Stmt) : stmt s.erase = stmt s := by
  cases s with
  | expr e span => simp [Stmt.erase, stmt, expr_erase e]
  | binding mutable name value span => simp [Stmt.erase, stmt, expr_erase value, Ident.erase]
  | function kind name params body span =>
    simp [Stmt.erase, stmt, block_erase body, Ident.erase]
  | returning value span => simp [Stmt.erase, stmt, expr_erase value]
  | importResource resource localName span => rfl
  | importPath p span => simp [Stmt.erase, stmt]

end

mutual

@[simp] theorem expr_dropHoles (e : Expr) : expr e.dropHoles = expr e := by
  cases e with
  | literal l => rfl
  | ident x => rfl
  | binary left op right span =>
    simp [Expr.dropHoles, expr, expr_dropHoles left, expr_dropHoles right]
  | unary op e span => simp [Expr.dropHoles, expr, expr_dropHoles e]
  | block b => simp [Expr.dropHoles, expr, block_dropHoles b]
  | function kind name params body span => simp [Expr.dropHoles, expr, expr_dropHoles body]
  | call callee args span => simp [Expr.dropHoles, expr, exprs_dropHoles args]
  | callValue callee args span =>
    simp [Expr.dropHoles, expr, expr_dropHoles callee, exprs_dropHoles args]
  | tuple elements span => simp [Expr.dropHoles, expr, exprs_dropHoles elements]
  | path p => simp [Expr.dropHoles, expr]

theorem exprs_dropHoles (es : List Expr) : exprs (Tree.dropHolesExprs es) = exprs es := by
  cases es with
  | nil => rfl
  | cons e es => simp [Tree.dropHolesExprs, exprs, expr_dropHoles e, exprs_dropHoles es]

theorem block_dropHoles (b : Block) : block b.dropHoles = block b := by
  obtain ⟨body, value, span⟩ := b
  have htail : (Tree.dropHolesTail value).isSome = value.isSome := by cases value <;> rfl
  simp [Block.dropHoles, block, stmts_dropHoles body, tail_dropHoles value, htail]

theorem tail_dropHoles (value : Option Expr) : tail (Tree.dropHolesTail value) = tail value := by
  cases value with
  | none => rfl
  | some value => simp [Tree.dropHolesTail, tail, expr_dropHoles value]

theorem stmts_dropHoles (ss : List Stmt) : stmts (Tree.dropHolesStmts ss) = stmts ss := by
  cases ss with
  | nil => rfl
  | cons s ss => simp [Tree.dropHolesStmts, stmts, stmt_dropHoles s, stmts_dropHoles ss]

theorem stmt_dropHoles (s : Stmt) : stmt s.dropHoles = stmt s := by
  cases s with
  | expr e span => simp [Stmt.dropHoles, stmt, expr_dropHoles e]
  | binding mutable name value span => simp [Stmt.dropHoles, stmt, expr_dropHoles value]
  | function kind name params body span => simp [Stmt.dropHoles, stmt, block_dropHoles body]
  | returning value span => simp [Stmt.dropHoles, stmt, expr_dropHoles value]
  | importResource resource localName span => rfl
  | importPath p span => simp [Stmt.dropHoles, stmt]

end

end Outline

namespace Program

/-- Programs that differ in spans only have the same outline. -/
theorem outline_erase (program : Program) : program.erase.outline = program.outline := by
  simp [outline, erase, Outline.stmts_erase]

theorem outline_dropHoles (program : Program) : program.dropHoles.outline = program.outline := by
  simp [outline, dropHoles, Outline.stmts_dropHoles]

end Program

end FrontEnd
