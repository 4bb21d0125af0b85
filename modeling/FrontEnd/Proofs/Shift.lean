import FrontEnd.Grammar.Block
import Mathlib.Data.List.Basic

/-! What was read from tokens, moved along the token list. Moving changes where the nodes of a tree
stand and nothing else. -/
namespace FrontEnd

namespace TokenRange

def shift (k : Nat) (r : TokenRange) : TokenRange :=
  ⟨r.start + k, r.stop + k⟩

@[simp] theorem start_shift (k : Nat) (r : TokenRange) : (r.shift k).start = r.start + k := rfl

@[simp] theorem stop_shift (k : Nat) (r : TokenRange) : (r.shift k).stop = r.stop + k := rfl

theorem shift_single (k i : Nat) : (single i).shift k = single (i + k) := by
  simp only [shift, single, Nat.add_right_comm]

theorem shift_clamped (k i j : Nat) : (clamped i j).shift k = clamped (i + k) (j + k) := by
  simp only [shift, clamped, Nat.add_max_add_right]

end TokenRange

namespace Ident

def shift (k : Nat) (x : Ident) : Ident :=
  { x with span := x.span.shift k }

theorem shift_ofToken (k : Nat) (token : Token) :
    (ofToken token).shift k = ofToken { token with index := token.index + k } := by
  simp only [shift, ofToken, TokenRange.shift_single]

end Ident

namespace Literal

def shift (k : Nat) (l : Literal) : Literal :=
  { l with span := l.span.shift k }

end Literal

namespace Operator

def shift (k : Nat) (op : Operator) : Operator :=
  { op with span := op.span.shift k }

end Operator

namespace Diagnostic

def shift (k : Nat) (d : Diagnostic) : Diagnostic :=
  { d with span := d.span.shift k }

end Diagnostic

mutual

def Path.shift (k : Nat) : Path → Path
  | ⟨segment, target, localName, span⟩ =>
    ⟨segment.shift k, target.shift k, localName.map (Ident.shift k), span.shift k⟩

def PathTarget.shift (k : Nat) : PathTarget → PathTarget
  | .leaf => .leaf
  | .item item => .item (item.shift k)
  | .nested next => .nested (next.shift k)
  | .wildcard span => .wildcard (span.shift k)
  | .group entries => .group (Path.shiftEntries k entries)

def Path.shiftEntries (k : Nat) : List Path → List Path
  | [] => []
  | entry :: entries => entry.shift k :: Path.shiftEntries k entries

end

mutual

def Expr.shift (k : Nat) : Expr → Expr
  | .literal l => .literal (l.shift k)
  | .ident x => .ident (x.shift k)
  | .binary left op right span =>
    .binary (left.shift k) (op.shift k) (right.shift k) (span.shift k)
  | .unary op e span => .unary (op.shift k) (e.shift k) (span.shift k)
  | .block b => .block (b.shift k)
  | .function kind name params body span =>
    .function kind (name.map (Ident.shift k)) (params.map (Ident.shift k)) (body.shift k)
      (span.shift k)
  | .call callee args span => .call (callee.shift k) (Tree.shiftExprs k args) (span.shift k)
  | .callValue callee args span =>
    .callValue (callee.shift k) (Tree.shiftExprs k args) (span.shift k)
  | .tuple elements span => .tuple (Tree.shiftExprs k elements) (span.shift k)
  | .path p => .path (p.shift k)

def Tree.shiftExprs (k : Nat) : List Expr → List Expr
  | [] => []
  | e :: es => e.shift k :: Tree.shiftExprs k es

def Block.shift (k : Nat) : Block → Block
  | ⟨stmts, tail, span⟩ => ⟨Tree.shiftStmts k stmts, Tree.shiftTail k tail, span.shift k⟩

def Tree.shiftTail (k : Nat) : Option Expr → Option Expr
  | none => none
  | some value => some (value.shift k)

def Tree.shiftStmts (k : Nat) : List Stmt → List Stmt
  | [] => []
  | s :: ss => s.shift k :: Tree.shiftStmts k ss

def Stmt.shift (k : Nat) : Stmt → Stmt
  | .expr e span => .expr (e.shift k) (span.shift k)
  | .binding mutable name value span =>
    .binding mutable (name.shift k) (value.shift k) (span.shift k)
  | .function kind name params body span =>
    .function kind (name.shift k) (params.map (Ident.shift k)) (body.shift k) (span.shift k)
  | .returning value span => .returning (value.shift k) (span.shift k)
  | .importResource resource localName span =>
    .importResource (resource.shift k) (localName.shift k) (span.shift k)
  | .importPath p span => .importPath (p.shift k) (span.shift k)

end

theorem Path.shiftEntries_eq_map (k : Nat) (entries : List Path) :
    Path.shiftEntries k entries = entries.map (Path.shift k) := by
  induction entries with
  | nil => rfl
  | cons entry entries ih => rw [Path.shiftEntries, ih, List.map_cons]

theorem Tree.shiftExprs_eq_map (k : Nat) (es : List Expr) :
    Tree.shiftExprs k es = es.map (Expr.shift k) := by
  induction es with
  | nil => rfl
  | cons e es ih => rw [Tree.shiftExprs, ih, List.map_cons]

theorem Tree.shiftTail_eq_map (k : Nat) (tail : Option Expr) :
    Tree.shiftTail k tail = tail.map (Expr.shift k) := by
  cases tail <;> rfl

theorem Tree.shiftStmts_eq_map (k : Nat) (stmts : List Stmt) :
    Tree.shiftStmts k stmts = stmts.map (Stmt.shift k) := by
  induction stmts with
  | nil => rfl
  | cons s stmts ih => rw [Tree.shiftStmts, ih, List.map_cons]

@[simp] theorem Path.span_shift (k : Nat) (p : Path) : (p.shift k).span = p.span.shift k := by
  cases p
  rw [Path.shift]

@[simp] theorem Block.span_shift (k : Nat) (b : Block) : (b.shift k).span = b.span.shift k := by
  cases b
  rw [Block.shift]

@[simp] theorem Block.hasTail_shift (k : Nat) (b : Block) : (b.shift k).hasTail = b.hasTail := by
  cases b
  simp only [Block.shift, Block.hasTail, Tree.shiftTail_eq_map, Option.isSome_map]

namespace Expr

@[simp] theorem span_shift (k : Nat) (e : Expr) : (e.shift k).span = e.span.shift k := by
  cases e <;> simp only [shift, span, Path.span_shift, Block.span_shift] <;> rfl

@[simp] theorem kind_shift (k : Nat) (e : Expr) : (e.shift k).kind = e.kind := by
  cases e <;> simp only [shift, kind]

@[simp] theorem canStandAlone_shift (k : Nat) (e : Expr) :
    (e.shift k).canStandAlone = e.canStandAlone := by
  cases e <;> simp only [shift, canStandAlone, Operator.shift]

theorem shift_join (k : Nat) (left : Expr) (op : Operator) (right : Expr) :
    (left.join op right).shift k = (left.shift k).join (op.shift k) (right.shift k) := by
  simp only [join, shift, TokenRange.upTo, TokenRange.shift_clamped, span_shift,
    TokenRange.start_shift, TokenRange.stop_shift]

end Expr

namespace Stmt

@[simp] theorem span_shift (k : Nat) (s : Stmt) : (s.shift k).span = s.span.shift k := by
  cases s <;> simp only [shift, span]

@[simp] theorem kind_shift (k : Nat) (s : Stmt) : (s.shift k).kind = s.kind := by
  cases s <;> simp only [shift, kind]

@[simp] theorem allowedInBlock_shift (k : Nat) (s : Stmt) :
    (s.shift k).allowedInBlock = s.allowedInBlock := by
  cases s <;> simp only [shift, allowedInBlock, Expr.canStandAlone_shift]

end Stmt

@[simp] theorem TokenRange.shift_zero (r : TokenRange) : r.shift 0 = r := rfl

@[simp] theorem Ident.shift_zero (x : Ident) : x.shift 0 = x := rfl

@[simp] theorem Literal.shift_zero (l : Literal) : l.shift 0 = l := rfl

@[simp] theorem Operator.shift_zero (op : Operator) : op.shift 0 = op := rfl

@[simp] theorem Ident.map_shift_zero (xs : List Ident) : xs.map (Ident.shift 0) = xs :=
  List.map_id' xs

@[simp] theorem Ident.optionMap_shift_zero (x : Option Ident) : x.map (Ident.shift 0) = x :=
  Option.map_id'

mutual

theorem Path.shift_zero (p : Path) : p.shift 0 = p := by
  match p with
  | ⟨segment, target, localName, span⟩ =>
    rw [Path.shift, PathTarget.shift_zero target]
    simp

theorem PathTarget.shift_zero (target : PathTarget) : target.shift 0 = target := by
  match target with
  | .leaf => rw [PathTarget.shift]
  | .item item => rw [PathTarget.shift, Ident.shift_zero]
  | .nested next => rw [PathTarget.shift, Path.shift_zero next]
  | .wildcard span => rw [PathTarget.shift, TokenRange.shift_zero]
  | .group entries => rw [PathTarget.shift, Path.shiftEntries_zero entries]

theorem Path.shiftEntries_zero (entries : List Path) : Path.shiftEntries 0 entries = entries := by
  match entries with
  | [] => rfl
  | entry :: entries =>
    rw [Path.shiftEntries, Path.shift_zero entry, Path.shiftEntries_zero entries]

end

mutual

theorem Expr.shift_zero (e : Expr) : e.shift 0 = e := by
  match e with
  | .literal l => rw [Expr.shift, Literal.shift_zero]
  | .ident x => rw [Expr.shift, Ident.shift_zero]
  | .binary left op right span =>
    rw [Expr.shift, Expr.shift_zero left, Expr.shift_zero right]
    simp
  | .unary op e span =>
    rw [Expr.shift, Expr.shift_zero e]
    simp
  | .block b => rw [Expr.shift, Block.shift_zero b]
  | .function kind name params body span =>
    rw [Expr.shift, Expr.shift_zero body]
    simp
  | .call callee args span =>
    rw [Expr.shift, Tree.shiftExprs_zero args]
    simp
  | .callValue callee args span =>
    rw [Expr.shift, Expr.shift_zero callee, Tree.shiftExprs_zero args]
    simp
  | .tuple elements span =>
    rw [Expr.shift, Tree.shiftExprs_zero elements]
    simp
  | .path p => rw [Expr.shift, Path.shift_zero]

theorem Tree.shiftExprs_zero (es : List Expr) : Tree.shiftExprs 0 es = es := by
  match es with
  | [] => rw [Tree.shiftExprs]
  | e :: es => rw [Tree.shiftExprs, Expr.shift_zero e, Tree.shiftExprs_zero es]

theorem Block.shift_zero (b : Block) : b.shift 0 = b := by
  match b with
  | ⟨stmts, tail, span⟩ =>
    rw [Block.shift, Tree.shiftStmts_zero stmts, Tree.shiftTail_zero tail]
    simp

theorem Tree.shiftTail_zero (tail : Option Expr) : Tree.shiftTail 0 tail = tail := by
  match tail with
  | none => rw [Tree.shiftTail]
  | some value => rw [Tree.shiftTail, Expr.shift_zero value]

theorem Tree.shiftStmts_zero (stmts : List Stmt) : Tree.shiftStmts 0 stmts = stmts := by
  match stmts with
  | [] => rw [Tree.shiftStmts]
  | s :: stmts => rw [Tree.shiftStmts, Stmt.shift_zero s, Tree.shiftStmts_zero stmts]

/-- A statement that is moved nowhere. -/
theorem Stmt.shift_zero (s : Stmt) : s.shift 0 = s := by
  match s with
  | .expr e span =>
    rw [Stmt.shift, Expr.shift_zero e]
    simp
  | .binding mutable name value span =>
    rw [Stmt.shift, Expr.shift_zero value]
    simp
  | .function kind name params body span =>
    rw [Stmt.shift, Block.shift_zero body]
    simp
  | .returning value span =>
    rw [Stmt.shift, Expr.shift_zero value]
    simp
  | .importResource resource localName span =>
    rw [Stmt.shift]
    simp
  | .importPath p span =>
    rw [Stmt.shift, Path.shift_zero]
    simp

end

namespace Grammar

open Parse

/-- Values that rules pass on, moved along the token list. -/
class Shift (α : Type) where
  shift : Nat → α → α

namespace Shift

variable {α β : Type}

instance : Shift Unit := ⟨fun _ a => a⟩

instance : Shift Bool := ⟨fun _ b => b⟩

/-- A number that rules pass on is a place. -/
instance : Shift Nat := ⟨fun k i => i + k⟩

instance : Shift TokenRange := ⟨TokenRange.shift⟩

instance : Shift Ident := ⟨Ident.shift⟩

instance : Shift Operator := ⟨Operator.shift⟩

instance : Shift Diagnostic := ⟨Diagnostic.shift⟩

instance : Shift Path := ⟨Path.shift⟩

instance : Shift PathTarget := ⟨PathTarget.shift⟩

instance : Shift Expr := ⟨Expr.shift⟩

instance : Shift Block := ⟨Block.shift⟩

instance : Shift Stmt := ⟨Stmt.shift⟩

instance [Shift α] : Shift (Option α) := ⟨fun k => Option.map (shift k)⟩

instance [Shift α] : Shift (List α) := ⟨fun k => List.map (shift k)⟩

instance [Shift α] : Shift (Array α) := ⟨fun k => Array.map (shift k)⟩

theorem shift_empty [Shift α] (k : Nat) : shift k (#[] : Array α) = #[] :=
  Array.map_empty

theorem shift_push [Shift α] (k : Nat) (as : Array α) (a : α) :
    shift k (as.push a) = (shift k as).push (shift k a) :=
  Array.map_push

instance [Shift α] [Shift β] : Shift (α × β) := ⟨fun k p => (shift k p.1, shift k p.2)⟩

instance [Shift α] : Shift (Except Diagnostic α) where
  shift k
    | .ok a => .ok (shift k a)
    | .error d => .error (d.shift k)

instance [Shift α] [Shift β] : Shift (Round α β) where
  shift k
    | .again a => .again (shift k a)
    | .done b => .done (shift k b)

instance : Shift Signature where
  shift k header :=
    ⟨header.kind, shift k header.name, shift k header.params, header.start + k⟩

instance : Shift BlockPart where
  shift k
    | .stmt s => .stmt (s.shift k)
    | .tail value => .tail (value.shift k)
    | .nothing => .nothing

end Shift

end Grammar

end FrontEnd
