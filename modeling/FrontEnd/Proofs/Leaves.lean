import FrontEnd.Proofs.Grouping

/-! The leaves of a tree: the parts that stand for one token each, in the order in which they are
met from left to right. -/
namespace FrontEnd

/-- What a name is used for, as far as a token beside it depends on it. -/
inductive Role where
  | plain
  /-- The variable of a declaration. -/
  | binding
  /-- The name that something is imported under. -/
  | importAlias
deriving DecidableEq

inductive Leaf where
  | literal (literal : Literal)
  | ident (role : Role) (ident : Ident)
  | operator (fixity : Fixity) (operator : Operator)
  | wildcard (span : TokenRange)
deriving DecidableEq

namespace Leaf

def span : Leaf → TokenRange
  | .literal l => l.span
  | .ident _ x => x.span
  | .operator _ op => op.span
  | .wildcard span => span

/-- The lexeme says what the leaf is. -/
def Says (lexeme : Lexeme) : Leaf → Prop
  | .literal l => LiteralKind.ofLexeme? lexeme = some l.kind ∧ lexeme.value = l.value
  | .ident _ x => lexeme.kind = .word ∧ lexeme.keyword? = none ∧ lexeme.value = x.name
  | .operator fixity op => Operation.ofLexeme? lexeme fixity = some op.operation
  | .wildcard _ => lexeme.kind = .star

def ofAlias : Option Ident → List Leaf
  | none => []
  | some x => [.ident .importAlias x]

def ofNames (names : List Ident) : List Leaf :=
  names.map (.ident .plain)

end Leaf

namespace Path

mutual

def leaves : Path → List Leaf
  | ⟨segment, target, localName, _⟩ =>
    .ident .plain segment :: (targetLeaves target ++ Leaf.ofAlias localName)

def targetLeaves : PathTarget → List Leaf
  | .leaf => []
  | .item item => [.ident .plain item]
  | .nested next => leaves next
  | .wildcard span => [.wildcard span]
  | .group entries => entriesLeaves entries

def entriesLeaves : List Path → List Leaf
  | [] => []
  | entry :: entries => leaves entry ++ entriesLeaves entries

end

end Path

namespace Tree

mutual

def exprLeaves : Expr → List Leaf
  | .literal l => [.literal l]
  | .ident x => [.ident .plain x]
  | .binary left op right _ => exprLeaves left ++ .operator .between op :: exprLeaves right
  | .unary op e _ => .operator .before op :: exprLeaves e
  | .block b => blockLeaves b
  | .function _ name params body _ =>
    Leaf.ofNames (name.toList ++ params) ++ exprLeaves body
  | .call callee args _ => .ident .plain callee :: exprsLeaves args
  | .callValue callee args _ => exprLeaves callee ++ exprsLeaves args
  | .tuple elements _ => exprsLeaves elements
  | .path p => p.leaves

def exprsLeaves : List Expr → List Leaf
  | [] => []
  | e :: es => exprLeaves e ++ exprsLeaves es

def blockLeaves : Block → List Leaf
  | ⟨stmts, tail, _⟩ => stmtsLeaves stmts ++ tailLeaves tail

def tailLeaves : Option Expr → List Leaf
  | none => []
  | some value => exprLeaves value

def stmtsLeaves : List Stmt → List Leaf
  | [] => []
  | s :: ss => stmtLeaves s ++ stmtsLeaves ss

def stmtLeaves : Stmt → List Leaf
  | .expr e _ => exprLeaves e
  | .binding _ name value _ => .ident .binding name :: exprLeaves value
  | .function _ name params body _ => Leaf.ofNames (name :: params) ++ blockLeaves body
  | .returning value _ => exprLeaves value
  | .importResource resource localName _ => [.literal resource, .ident .importAlias localName]
  | .importPath p _ => p.leaves

end

/-- The leaves of operators and the operands behind them. -/
def linksLeaves (links : Links) : List Leaf :=
  links.flatMap fun l => .operator .between l.1 :: exprLeaves l.2

/-- Grouping neither loses nor reorders operands and operators. -/
theorem exprLeaves_of_grouped {u e : Expr} {links : Links} (h : Grouped u links e) :
    exprLeaves e = exprLeaves u ++ linksLeaves links := by
  induction h with
  | operand u => simp [linksLeaves]
  | split _ _ _ _ _ _ ihleft ihright =>
    simp only [Expr.join, exprLeaves, ihleft, ihright]
    simp [linksLeaves]

end Tree

namespace Program

def leaves (program : Program) : List Leaf :=
  Tree.stmtsLeaves program.body

end Program

end FrontEnd
