import FrontEnd.Grammar.Statement

/-! Blocks. Errors in the statements of a block are recorded and the rest of the block is still
read. -/
namespace FrontEnd.Grammar

open Parse

/-- What is read next in a block. -/
inductive BlockPart where
  | stmt (stmt : Stmt)
  /-- An expression without a semicolon, which is the value of the block. -/
  | tail (value : Expr)
  | nothing

namespace Level

variable (g : Level)

/-- The next part of a block. -/
def blockPart : Parse BlockPart := do
  let token ← current
  match token.keyword? with
  | some _ =>
    match ← g.statement true with
    | some s => pure (.stmt s)
    | none => pure .nothing
  | none =>
    let start ← position
    match ← g.expression with
    | none => pure .nothing
    | some e =>
      if ← isAt .semicolon then .stmt <$> expressionStatement e start else pure (.tail e)

/-- Reads a part of a block behind the statements before it. -/
def blockRound (stmts : Array Stmt) :
    Parse (Round (Array Stmt) (Array Stmt × Option Expr)) := do
  let token ← current
  if token.kind = .closeCurly ∨ token.kind = .endMark then pure (.done (stmts, none))
  else
    match ← attempt g.blockPart with
    | .ok (.tail value) => pure (.done (stmts, some value))
    | .ok .nothing => pure (.done (stmts, none))
    | .ok (.stmt s) =>
      if s.allowedInBlock then pure (.again (stmts.push s))
      else
        record ⟨.notAllowedInBlock s.kind, s.span⟩
        pure (.again stmts)
    | .error d =>
      record d
      recover
      pure (.again stmts)

/-- The value of a block: the one found between its statements, or an expression behind them. -/
def blockTail (found : Option Expr) : Parse (Option Expr) :=
  match found with
  | some value => pure (some value)
  | none => g.expression

/-- A block, with the cursor on its opening brace. -/
def blockBody : Parse Block := do
  let opening ← expect .openCurly "`\x7b`"
  let (stmts, found) ← loop g.blockRound #[]
  let tail ← g.blockTail found
  let _ ← expect .closeCurly "`\x7d`"
  let span ← rangeFrom opening.index
  pure ⟨stmts.toList, tail, span⟩

end Level

end FrontEnd.Grammar
