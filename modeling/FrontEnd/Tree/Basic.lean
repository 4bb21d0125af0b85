import FrontEnd.Operator
import FrontEnd.Tree.Kind

/-! Trees of programs. Every node carries the range of tokens it was read from. -/
namespace FrontEnd

/-- A name, and the keyword that it spells. The grammar makes no name that spells one, but a name
may be made of any token. -/
structure Ident where
  name : String
  keyword : Option Keyword
  span : TokenRange
deriving DecidableEq

namespace Ident

def ofToken (token : Token) : Ident :=
  ⟨token.value, token.keyword?, .single token.index⟩

/-- As `ofToken`, where the place of the token has to be an address. -/
def ofTokenChecked (token : Token) : Except Fault Ident := do
  let span ← TokenRange.singleChecked token.index
  .ok { ofToken token with span }

def isKeyword (ident : Ident) : Bool :=
  ident.keyword.isSome

end Ident

/-- A literal. Numbers keep their text; strings and characters keep what stands between the
quotes, with escapes as written. -/
structure Literal where
  kind : LiteralKind
  value : String
  span : TokenRange
deriving DecidableEq

mutual

/-- A name, what follows its double colon, and the name that it is imported under. -/
structure Path where
  segment : Ident
  target : PathTarget
  localName : Option Ident
  span : TokenRange

/-- What follows the double colon of a path. A leaf is an entry of a group that ends there. -/
inductive PathTarget where
  | leaf
  | item (item : Ident)
  | nested (path : Path)
  | wildcard (span : TokenRange)
  | group (entries : List Path)

end

mutual

inductive Expr where
  | literal (literal : Literal)
  | ident (ident : Ident)
  | binary (left : Expr) (operator : Operator) (right : Expr) (span : TokenRange)
  | unary (operator : Operator) (operand : Expr) (span : TokenRange)
  | block (block : Block)
  | function (kind : FunctionKind) (name : Option Ident) (params : List Ident) (body : Expr)
      (span : TokenRange)
  | call (callee : Ident) (args : List Expr) (span : TokenRange)
  | callValue (callee : Expr) (args : List Expr) (span : TokenRange)
  | tuple (elements : List Expr) (span : TokenRange)
  | path (path : Path)

/-- Statements, and the expression that is the value of the block if it has one. -/
structure Block where
  stmts : List Stmt
  tail : Option Expr
  span : TokenRange

inductive Stmt where
  | expr (expr : Expr) (span : TokenRange)
  | binding (mutable : Bool) (name : Ident) (value : Expr) (span : TokenRange)
  | function (kind : FunctionKind) (name : Ident) (params : List Ident) (body : Block)
      (span : TokenRange)
  | returning (value : Expr) (span : TokenRange)
  | importResource (resource : Literal) (localName : Ident) (span : TokenRange)
  | importPath (path : Path) (span : TokenRange)

end

/-- The statements of a whole source text, in order. -/
structure Program where
  body : List Stmt
  span : TokenRange

namespace Path

mutual

/-- The names along a path, up to the first wildcard, group or leaf. -/
def names : Path → List Ident
  | ⟨segment, target, _, _⟩ => segment :: targetNames target

/-- The names along what follows a double colon. -/
def targetNames : PathTarget → List Ident
  | .leaf => []
  | .item item => [item]
  | .nested next => names next
  | .wildcard _ => []
  | .group _ => []

end

end Path

namespace Block

def hasTail (block : Block) : Bool :=
  block.tail.isSome

end Block

namespace Expr

def kind : Expr → ExprKind
  | .literal _ => .literal
  | .ident _ => .ident
  | .binary .. => .binary
  | .unary .. => .unary
  | .block _ => .block
  | .function .. => .function
  | .call .. => .call
  | .callValue .. => .callValue
  | .tuple .. => .tuple
  | .path _ => .path

def span : Expr → TokenRange
  | .literal l => l.span
  | .ident i => i.span
  | .binary _ _ _ span => span
  | .unary _ _ span => span
  | .block b => b.span
  | .function _ _ _ _ span => span
  | .call _ _ span => span
  | .callValue _ _ span => span
  | .tuple _ span => span
  | .path p => p.span

/-- How tightly the expression binds where it is an operand. A function reaches as far to the
right as it can, and so binds loosest of all. -/
def precedence : Expr → Nat
  | .binary _ operator _ _ => operator.operation.precedence.getD 0
  | .unary .. => prefixPrecedence
  | .function .. => 0
  | _ => callPrecedence

/-- Whether the expression may be a statement: calls, blocks and assignments may. -/
def canStandAlone : Expr → Bool
  | .call .. => true
  | .callValue .. => true
  | .block _ => true
  | .binary _ operator _ _ => operator.operation == .assign
  | _ => false

/-- Two operands joined by an operator. -/
def join (left : Expr) (operator : Operator) (right : Expr) : Expr :=
  .binary left operator right (left.span.upTo right.span)

end Expr

namespace Stmt

def kind : Stmt → StmtKind
  | .expr .. => .expr
  | .binding .. => .binding
  | .function .. => .function
  | .returning .. => .returning
  | .importResource .. => .importing
  | .importPath .. => .importing

def span : Stmt → TokenRange
  | .expr _ span => span
  | .binding _ _ _ span => span
  | .function _ _ _ _ span => span
  | .returning _ span => span
  | .importResource _ _ span => span
  | .importPath _ span => span

/-- Whether the statement may stand in a block. -/
def allowedInBlock : Stmt → Bool
  | .expr e _ => e.canStandAlone
  | .binding .. => true
  | .function .. => true
  | .returning .. => true
  | .importResource .. => false
  | .importPath .. => false

end Stmt

namespace Program

/-- The program with the given statements, which reaches from the first to the last. -/
def ofBody (body : List Stmt) : Program :=
  match body.head?, body.getLast? with
  | some first, some last => ⟨body, first.span.upTo last.span⟩
  | _, _ => ⟨body, .zero⟩

end Program

end FrontEnd
