import FrontEnd.Grammar.Level
import FrontEnd.Grammar.Signature

/-! Expressions: operands, the operators before, between and behind them. -/
namespace FrontEnd.Grammar

open Parse

variable {α : Type}

/-- Stops because no expression starts here. The context says what it was needed for. -/
def missingExpression (context : String) : Parse α := do
  let token ← current
  failHere (.expectedExpression context token.text)

/-- Passes the token at the cursor, which is an operator in the given place. -/
def operator (fixity : Fixity) : Parse Operator := do
  let token ← advance
  lift (Operator.ofToken token fixity)

namespace Level

variable (g : Level)

/-- An expression, if one starts here. -/
def expression : Parse (Option Expr) := do
  match ← g.unary with
  | none => pure none
  | some left => some <$> g.binary left 0

/-- An expression, which has to be there. -/
def requiredExpression (context : String) : Parse Expr := do
  match ← g.expression with
  | some e => pure e
  | none => missingExpression context

/-- Extends a right operand by the operators behind it that bind tighter than the one before it,
or as tight if they group to the right. -/
def operandRound (level : Nat) (right : Expr) : Parse (Round Expr Expr) := do
  let token ← current
  match token.bindingPower? with
  | none => pure (.done right)
  | some (next, associativity) =>
    if level < next then .again <$> g.binary right (level + 1)
    else if next = level ∧ associativity = .right then .again <$> g.binary right level
    else pure (.done right)

/-- The right operand of an operator of the given precedence. -/
def rightOperand (level : Nat) : Parse Expr := do
  match ← g.unary with
  | none => missingExpression "on the right-hand side of binary expression"
  | some first => loop (g.operandRound level) first

/-- Joins the next operator, if it binds at least as tight as `least`, and its right operand to
what stands before. -/
def binaryRound (least : Nat) (left : Expr) : Parse (Round Expr Expr) := do
  let token ← current
  match token.bindingPower? with
  | none => pure (.done left)
  | some (level, _) =>
    if level < least then pure (.done left)
    else
      let op ← operator .between
      let right ← g.rightOperand level
      pure (.again (left.join op right))

/-- The operators behind a first operand that bind at least as tight as `least`. -/
def binaryChain (left : Expr) (least : Nat) : Parse Expr :=
  loop (g.binaryRound least) left

/-- An argument of a call and the comma behind it; without a comma it is the last one. -/
def argumentRound (args : Array Expr) : Parse (Round (Array Expr) (Array Expr)) := do
  if ← isAt .closeParen then pure (.done args)
  else
    match ← g.expression with
    | none => pure (.done args)
    | some arg =>
      match ← accept .comma with
      | some _ => pure (.again (args.push arg))
      | none => pure (.done (args.push arg))

/-- The arguments of a call, in parentheses. -/
def arguments : Parse (List Expr) := do
  let _ ← expect .openParen "`(`"
  let args ← loop g.argumentRound #[]
  let _ ← expect .closeParen "`)`"
  pure args.toList

/-- An element of a tuple and the comma behind it; without a comma it is the last one. -/
def elementRound (elements : Array Expr) : Parse (Round (Array Expr) (Array Expr)) := do
  match ← g.expression with
  | none => pure (.done elements)
  | some element =>
    match ← accept .comma with
    | some _ => pure (.again (elements.push element))
    | none => pure (.done (elements.push element))

/-- What follows an opening parenthesis and a first expression: nothing more, which is a
grouping, or a comma and further elements, which is a tuple. -/
def parenthesizedFrom (start : Nat) (first : Expr) : Parse Expr := do
  match ← accept .comma with
  | none =>
    let _ ← expect .closeParen "`)`"
    pure first
  | some _ =>
    let elements ← loop g.elementRound #[first]
    let _ ← expect .closeParen "`)`"
    let span ← rangeFrom start
    pure (.tuple elements.toList span)

/-- A grouping or a tuple, with the cursor on its opening parenthesis. -/
def parenthesized : Parse Expr := do
  let opening ← advance
  match ← g.expression with
  | some first => g.parenthesizedFrom opening.index first
  | none =>
    match ← accept .closeParen with
    | some _ =>
      let span ← rangeFrom opening.index
      pure (.tuple [] span)
    | none => missingExpression "inside parentheses"

/-- The body of a function expression. That of an action is a block without a value. -/
def functionBody (kind : FunctionKind) : Parse Expr :=
  match kind with
  | .compute => g.requiredExpression "for function body"
  | .action => do
    if ← isAt .openCurly then
      let block ← g.block
      if block.hasTail then fail ⟨.actionTail, block.span⟩ else pure (.block block)
    else failHere .actionBodyNotBlock

/-- A function in the place of an expression. -/
def function : Parse Expr := do
  let header ← signature
  let body ← g.functionBody header.kind
  let span ← rangeBetween header.start body.span.stop
  pure (.function header.kind header.name header.params body span)

/-- A keyword in the place of an expression. -/
def keywordExpression (keyword : Keyword) : Parse Expr :=
  match keyword.functionKind? with
  | some _ => g.function
  | none => failHere (.unexpectedKeyword keyword "expression")

/-- A name, with the path or the arguments behind it. -/
def named (token : Token) : Parse Expr := do
  let _ ← advance
  let ident := Ident.ofToken token
  match ← accept .doubleColon with
  | some _ => .path <$> g.path ident .expression
  | none =>
    if ← isAt .openParen then
      let args ← g.arguments
      let span ← rangeFrom token.index
      pure (.call ident args span)
    else pure (.ident ident)

/-- An expression without operators, if one starts here. -/
def primary : Parse (Option Expr) := do
  let token ← current
  match LiteralKind.ofLexeme? token.toLexeme with
  | some kind =>
    let _ ← advance
    pure (some (.literal ⟨kind, token.value, .single token.index⟩))
  | none =>
    match token.kind with
    | .word =>
      match token.keyword? with
      | some keyword => some <$> g.keywordExpression keyword
      | none => some <$> g.named token
    | .openParen => some <$> g.parenthesized
    | .openCurly =>
      let block ← g.block
      pure (some (.block block))
    | _ => pure none

/-- A call of the value before it. -/
def callRound (callee : Expr) : Parse (Round Expr Expr) := do
  if ← isAt .openParen then
    let args ← g.arguments
    let span ← rangeFrom callee.span.start
    pure (.again (.callValue callee args span))
  else pure (.done callee)

/-- An expression without operators and the calls of its value. -/
def called : Parse (Option Expr) := do
  match ← g.primary with
  | none => pure none
  | some callee => some <$> loop g.callRound callee

/-- An operand with the operators before it, if an expression starts here. -/
def operand : Parse (Option Expr) := do
  let token ← current
  match Operation.unary? token.toLexeme with
  | none => g.called
  | some _ =>
    let op ← operator .before
    match ← g.unary with
    | none => missingExpression "after unary operator"
    | some e =>
      let span ← rangeBetween token.index e.span.stop
      pure (some (.unary op e span))

end Level

end FrontEnd.Grammar
