import FrontEnd.Tree.Basic

/-! The nodes of a tree. Every part that has a span is a node, and its children are the parts
directly below it, in the order of the source. -/
namespace FrontEnd

/-- A part with a span. A name, literal, block or path that is an expression by itself is the one
child of that expression. -/
inductive Node where
  | ident (ident : Ident)
  | literal (literal : Literal)
  | operator (operator : Operator)
  | wildcard (span : TokenRange)
  | path (path : Path)
  | expr (expr : Expr)
  | block (block : Block)
  | stmt (stmt : Stmt)

namespace Node

def span : Node → TokenRange
  | .ident x => x.span
  | .literal l => l.span
  | .operator op => op.span
  | .wildcard span => span
  | .path p => p.span
  | .expr e => e.span
  | .block b => b.span
  | .stmt s => s.span

/-- Whether the node stands for a single token. -/
def isToken : Node → Bool
  | .ident _ => true
  | .literal _ => true
  | .operator _ => true
  | .wildcard _ => true
  | _ => false

/-- The children of what follows a double colon. -/
def ofTarget : PathTarget → List Node
  | .leaf => []
  | .item x => [.ident x]
  | .nested next => [.path next]
  | .wildcard span => [.wildcard span]
  | .group entries => entries.map .path

def ofExpr : Expr → List Node
  | .literal l => [.literal l]
  | .ident x => [.ident x]
  | .binary left op right _ => [.expr left, .operator op, .expr right]
  | .unary op e _ => [.operator op, .expr e]
  | .block b => [.block b]
  | .function _ name params body _ => (name.toList ++ params).map .ident ++ [.expr body]
  | .call callee args _ => .ident callee :: args.map .expr
  | .callValue callee args _ => .expr callee :: args.map .expr
  | .tuple elements _ => elements.map .expr
  | .path p => [.path p]

def ofStmt : Stmt → List Node
  | .expr e _ => [.expr e]
  | .binding _ name value _ => [.ident name, .expr value]
  | .function _ name params body _ => (name :: params).map .ident ++ [.block body]
  | .returning value _ => [.expr value]
  | .importResource resource localName _ => [.literal resource, .ident localName]
  | .importPath p _ => [.path p]

/-- The nodes directly below, in the order of the source. -/
def children : Node → List Node
  | .path p => .ident p.segment :: (ofTarget p.target ++ p.localName.toList.map .ident)
  | .expr e => ofExpr e
  | .block b => b.stmts.map .stmt ++ b.tail.toList.map .expr
  | .stmt s => ofStmt s
  | _ => []

/-- The second node is the first one or lies somewhere below it. -/
inductive Contains : Node → Node → Prop where
  | self (node : Node) : Contains node node
  | step {node child target : Node} (hchild : child ∈ node.children)
      (h : Contains child target) : Contains node target

theorem Contains.trans {a b c : Node} (h : a.Contains b) (h' : b.Contains c) : a.Contains c := by
  induction h with
  | self => exact h'
  | step hchild _ ih => exact .step hchild (ih h')

/-- The node and all nodes below it have a property. -/
def Everywhere (P : Node → Prop) (node : Node) : Prop :=
  ∀ target, node.Contains target → P target

namespace Everywhere

variable {P : Node → Prop} {node : Node}

theorem here (h : Everywhere P node) : P node :=
  h node (.self node)

theorem mk (hnode : P node) (hchildren : ∀ child ∈ node.children, Everywhere P child) :
    Everywhere P node := by
  intro target h
  cases h with
  | self => exact hnode
  | step hchild h => exact hchildren _ hchild target h

/-- What holds of a node and all nodes below it holds of each child and all nodes below that. -/
theorem child (h : Everywhere P node) {child : Node} (hchild : child ∈ node.children) :
    Everywhere P child :=
  fun target htarget => h target (.step hchild htarget)

/-- A node without children. -/
theorem leaf (hnode : P node) (hnone : node.children = []) : Everywhere P node := by
  refine mk hnode ?_
  rw [hnone]
  simp

end Everywhere

end Node

/-- The node is a statement of the program or lies below one. -/
def Program.Contains (program : Program) (node : Node) : Prop :=
  ∃ s ∈ program.body, (Node.stmt s).Contains node

theorem Program.Contains.child {program : Program} {node child : Node}
    (h : program.Contains node) (hchild : child ∈ node.children) : program.Contains child := by
  obtain ⟨s, hs, hnode⟩ := h
  exact ⟨s, hs, hnode.trans (.step hchild (.self child))⟩

end FrontEnd
