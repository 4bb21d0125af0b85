import FrontEnd.Proofs.Nodes

/-! The levels of the nodes of a tree. The level grows by one from an operator to the operand behind
it, from a call to its arguments, from a tuple to its elements, from a function to its body, from a
statement or a block to the expression, block or path in it, and along the nested parts of a path.
The left operand of an operator and the called value stay at the level of the whole. -/
namespace FrontEnd

namespace Node

/-- By how much the level grows from a group to an entry. An entry that is a single name stays at
the level of its group. -/
def entryRise (entry : Path) : Nat :=
  match entry.target with
  | .leaf => 0
  | _ => 1

/-- Nodes with the same rise. -/
def rising (rise : Nat) (nodes : List Node) : List (Nat × Node) :=
  nodes.map fun node => (rise, node)

/-- What follows a double colon, with the rise of each node. -/
def belowTarget : PathTarget → List (Nat × Node)
  | .leaf => []
  | .item x => [(0, .ident x)]
  | .nested next => [(1, .path next)]
  | .wildcard span => [(0, .wildcard span)]
  | .group entries => entries.map fun entry => (entryRise entry, .path entry)

def belowExpr : Expr → List (Nat × Node)
  | .literal l => [(0, .literal l)]
  | .ident x => [(0, .ident x)]
  | .binary left op right _ => [(0, .expr left), (0, .operator op), (1, .expr right)]
  | .unary op e _ => [(0, .operator op), (1, .expr e)]
  | .block b => [(0, .block b)]
  | .function _ name params body _ =>
    rising 0 ((name.toList ++ params).map .ident) ++ [(1, .expr body)]
  | .call callee args _ => (0, .ident callee) :: rising 1 (args.map .expr)
  | .callValue callee args _ => (0, .expr callee) :: rising 1 (args.map .expr)
  | .tuple elements _ => rising 1 (elements.map .expr)
  | .path p => [(0, .path p)]

def belowStmt : Stmt → List (Nat × Node)
  | .expr e _ => [(1, .expr e)]
  | .binding _ name value _ => [(0, .ident name), (1, .expr value)]
  | .function _ name params body _ =>
    rising 0 ((name :: params).map .ident) ++ [(1, .block body)]
  | .returning value _ => [(1, .expr value)]
  | .importResource resource localName _ => [(0, .literal resource), (0, .ident localName)]
  | .importPath p _ => [(1, .path p)]

/-- The children of a node, each with the levels that it lies deeper than the node. -/
def below : Node → List (Nat × Node)
  | .path p =>
    (0, .ident p.segment) :: (belowTarget p.target ++ rising 0 (p.localName.toList.map .ident))
  | .expr e => belowExpr e
  | .block b => rising 0 (b.stmts.map .stmt) ++ rising 1 (b.tail.toList.map .expr)
  | .stmt s => belowStmt s
  | _ => []

@[simp] theorem map_snd_rising (rise : Nat) (nodes : List Node) :
    (rising rise nodes).map (·.2) = nodes := by
  simp [rising, Function.comp_def]

theorem map_snd_belowTarget (target : PathTarget) :
    (belowTarget target).map (·.2) = ofTarget target := by
  cases target <;> simp [belowTarget, ofTarget]

/-- Every child has a rise, and nothing else has one. -/
theorem map_snd_below (node : Node) : node.below.map (·.2) = node.children := by
  cases node with
  | path p => simp [below, children, map_snd_belowTarget]
  | expr e => cases e <;> simp [below, children, belowExpr, ofExpr]
  | block b => simp [below, children]
  | stmt s => cases s <;> simp [below, children, belowStmt, ofStmt]
  | _ => rfl

/-- The second node is the first one, or lies somewhere below it, and is that many levels deeper. -/
inductive At : Node → Nat → Node → Prop where
  | self (node : Node) : At node 0 node
  | step {node child target : Node} {rise level : Nat} (hchild : (rise, child) ∈ node.below)
      (h : At child level target) : At node (rise + level) target

/-- Every node of a tree has a level, and only those have one. -/
theorem contains_iff_at {node target : Node} :
    node.Contains target ↔ ∃ level, node.At level target := by
  constructor
  · intro h
    induction h with
    | self node => exact ⟨0, .self node⟩
    | @step node child target hchild _ ih =>
      obtain ⟨level, hlevel⟩ := ih
      rw [← map_snd_below] at hchild
      obtain ⟨⟨rise, _⟩, hmem, rfl⟩ := List.mem_map.mp hchild
      exact ⟨rise + level, .step hmem hlevel⟩
  · intro ⟨level, h⟩
    induction h with
    | self node => exact .self node
    | @step node child target rise level hchild _ ih =>
      refine .step ?_ ih
      rw [← map_snd_below]
      exact List.mem_map_of_mem (f := Prod.snd) hchild

/-- The node and all nodes below it lie on the first so many levels, its own being the first. -/
def Bounded (levels : Nat) (node : Node) : Prop :=
  ∀ level target, node.At level target → level < levels

namespace Bounded

variable {levels : Nat} {node : Node}

theorem mono {levels' : Nat} (h : Bounded levels node) (hle : levels ≤ levels') :
    Bounded levels' node := by
  intro level target hat
  have hlt := h level target hat
  omega

/-- A node is bounded if each child is bounded by what its rise leaves. -/
theorem mk (h : ∀ b ∈ node.below, Bounded (levels + 1 - b.1) b.2) : Bounded (levels + 1) node := by
  intro level target hat
  cases hat with
  | self => omega
  | step hchild hat =>
    have hlt := h _ hchild _ _ hat
    omega

theorem ident (x : Ident) : Bounded (levels + 1) (.ident x) :=
  mk (by simp [below])

theorem operator (op : Operator) : Bounded (levels + 1) (.operator op) :=
  mk (by simp [below])

theorem literal (l : Literal) : Bounded (levels + 1) (.literal l) :=
  mk (by simp [below])

theorem wildcard (span : TokenRange) : Bounded (levels + 1) (.wildcard span) :=
  mk (by simp [below])

/-- A node above a single child on the same level. -/
theorem same {child : Node} (h : Bounded levels child) (hbelow : node.below = [(0, child)]) :
    Bounded levels node := by
  have hpos := h 0 child (.self child)
  obtain ⟨n, rfl⟩ : ∃ n, levels = n + 1 := ⟨levels - 1, by omega⟩
  exact mk (by simpa [hbelow] using h)

end Bounded

end Node

/-- The node lies on the given level of the program. The statements of the program lie on level 0,
and so what a statement consists of on level 1. -/
def Program.At (program : Program) (level : Nat) (node : Node) : Prop :=
  ∃ s ∈ program.body, (Node.stmt s).At level node

theorem Program.contains_iff_at {program : Program} {node : Node} :
    program.Contains node ↔ ∃ level, program.At level node := by
  simp only [Contains, At, Node.contains_iff_at]
  grind

end FrontEnd
