import FrontEnd.Grammar.Primitive

/-! The rules that open a nesting level. All other rules are written over the four of them, as
they are available at some depth; nesting then ties the knot, one level after the other. -/
namespace FrontEnd.Grammar

/-- Where a path stands. Wildcards, groups and aliases are for imports. -/
inductive PathPlace where
  | importing
  | expression
deriving DecidableEq

structure Level where
  /-- An operand with the operators before it, if an expression starts here. -/
  unary : Parse (Option Expr)
  /-- The operators and operands behind a first operand, down to the given precedence. -/
  binary : Expr → Nat → Parse Expr
  block : Parse Block
  /-- What follows a segment and its double colon. -/
  path : Ident → PathPlace → Parse Path

namespace Level

/-- The level below which none may be opened. -/
def closed : Level where
  unary := tooDeep
  binary _ _ := tooDeep
  block := tooDeep
  path _ _ := tooDeep

end Level

end FrontEnd.Grammar
