import FrontEnd.Grammar.Block

/-! The rules at every depth. At each depth the four rules that open a level run one level deeper,
where one level fewer is left; where none is left they stop. -/
namespace FrontEnd.Grammar

open Parse

namespace Level

/-- The rules one level above the given ones. -/
def above (g : Level) : Level where
  unary := nested g.operand
  binary left least := nested (g.binaryChain left least)
  block := nested g.blockBody
  path segment place := nested (g.pathFrom segment place)

/-- The rules where `room` levels may still be opened. -/
def withRoom : Nat → Level
  | 0 => closed
  | room + 1 => (withRoom room).above

end Level

variable {α : Type}

/-- Runs a rule with the levels that are left in the state. -/
def atDepth (rule : Level → Parse α) : Parse α := fun s =>
  rule (.withRoom (maxDepth - s.depth)) s

/-- An expression, if one starts here. -/
def expression : Parse (Option Expr) :=
  atDepth (·.expression)

/-- An expression, which has to be there. -/
def requiredExpression (context : String) : Parse Expr :=
  atDepth (·.requiredExpression context)

def block : Parse Block :=
  atDepth (·.block)

/-- A path behind its first segment and the double colon. -/
def path (segment : Ident) (place : PathPlace) : Parse Path :=
  atDepth (·.path segment place)

/-- A statement, if one starts here. -/
def statement (inBlock : Bool) : Parse (Option Stmt) :=
  atDepth (·.statement inBlock)

/-- A statement of the given form. -/
def statementOf (form : StatementForm) (inBlock : Bool) : Parse (Option Stmt) :=
  atDepth (·.statementOf form inBlock)

end FrontEnd.Grammar
