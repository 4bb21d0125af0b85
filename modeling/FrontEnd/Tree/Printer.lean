import FrontEnd.Tree.Basic

/-! Trees as source text. A tree is laid out as lexemes and the blanks between them, with
parentheses only where precedences ask for them, and the text is the concatenation. -/
namespace FrontEnd

/-- A lexeme of a written program, or the blanks between two. -/
inductive Piece where
  | lexeme (lexeme : Lexeme)
  | blank (text : String)
deriving DecidableEq

namespace Piece

def text : Piece → String
  | .lexeme l => l.text
  | .blank t => t

def space : Piece := .blank " "

def newline : Piece := .blank "\n"

def word (value : String) : Piece := .lexeme (.word value)

def fixed (kind : TokenKind) : Piece := .lexeme (.fixed kind)

/-- Lists of pieces with a comma between them. -/
def commaSeparated (parts : List (List Piece)) : List Piece :=
  [fixed .comma, space].intercalate parts

/-- The pieces in parentheses. -/
def parenthesized (pieces : List Piece) : List Piece :=
  fixed .openParen :: pieces ++ [fixed .closeParen]

/-- The pieces, in parentheses if they are needed. -/
def operand (needed : Bool) (pieces : List Piece) : List Piece :=
  if needed then parenthesized pieces else pieces

def render (pieces : List Piece) : String :=
  String.join (pieces.map text)

end Piece

open Piece

namespace Ident

def piece (ident : Ident) : Piece :=
  .word ident.name

/-- The names of parameters, in parentheses. -/
def listPieces (idents : List Ident) : List Piece :=
  parenthesized (commaSeparated (idents.map fun ident => [ident.piece]))

end Ident

namespace Literal

def piece (literal : Literal) : Piece :=
  .lexeme (literal.kind.lexeme literal.value)

end Literal

namespace Path

/-- The alias behind a path. -/
def aliasPieces : Option Ident → List Piece
  | some localName => [space, word Keyword.asKey.text, space, localName.piece]
  | none => []

mutual

def pieces : Path → List Piece
  | ⟨segment, target, localName, _⟩ => segment.piece :: targetPieces target ++ aliasPieces localName

def targetPieces : PathTarget → List Piece
  | .leaf => []
  | .item item => [fixed .doubleColon, item.piece]
  | .nested next => fixed .doubleColon :: pieces next
  | .wildcard _ => [fixed .doubleColon, fixed .star]
  | .group entries =>
    fixed .doubleColon :: fixed .openCurly :: commaSeparated (entryPieces entries) ++
      [fixed .closeCurly]

def entryPieces : List Path → List (List Piece)
  | [] => []
  | entry :: entries => pieces entry :: entryPieces entries

end

end Path

namespace Expr

/-- Whether the left operand of an operation needs parentheses. -/
def leftNeeds (operation : Operation) (left : Expr) : Bool :=
  let level := operation.precedence.getD 0
  decide (left.precedence < level) ||
    (left.precedence == level && operation.associativity == .right)

/-- Whether the right operand of an operation needs parentheses. -/
def rightNeeds (operation : Operation) (right : Expr) : Bool :=
  let level := operation.precedence.getD 0
  decide (right.precedence < level) ||
    (right.precedence == level && operation.associativity == .left)

/-- Whether the operand of a prefix operator needs parentheses. -/
def operandNeeds (operand : Expr) : Bool :=
  decide (operand.precedence < prefixPrecedence)

/-- Whether an expression needs parentheses where its value is called. A name does, because
without them it is the callee of another kind of call. -/
def calleeNeeds (callee : Expr) : Bool :=
  decide (callee.precedence < callPrecedence) || callee.kind == .ident

/-- The keyword, the name and the parameters of a function, up to its body. -/
def headerPieces (kind : FunctionKind) (name : Option Ident) (params : List Ident) :
    List Piece :=
  let named := match name with
    | some n => [space, n.piece]
    | none => []
  word kind.keyword.text :: named ++ Ident.listPieces params ++ [space, fixed .arrow, space]

/-- A tuple in its parentheses. A comma tells a tuple of one element from a grouping. -/
def tuplePieces : List (List Piece) → List Piece
  | [element] => parenthesized (element ++ [fixed .comma])
  | elements => parenthesized (commaSeparated elements)

end Expr

namespace Block

/-- The items of a block, in braces. -/
def bracePieces : List (List Piece) → List Piece
  | [] => [fixed .openCurly, fixed .closeCurly]
  | items =>
    fixed .openCurly :: space :: [space].intercalate items ++ [space, fixed .closeCurly]

end Block

namespace Tree

mutual

def exprPieces : Expr → List Piece
  | .literal l => [l.piece]
  | .ident i => [i.piece]
  | .binary left op right _ =>
    operand (Expr.leftNeeds op.operation left) (exprPieces left) ++
      [space, .lexeme op.operation.lexeme, space] ++
      operand (Expr.rightNeeds op.operation right) (exprPieces right)
  | .unary op e _ =>
    .lexeme op.operation.lexeme :: operand (Expr.operandNeeds e) (exprPieces e)
  | .block b => blockPieces b
  | .function kind name params body _ =>
    Expr.headerPieces kind name params ++ exprPieces body
  | .call callee args _ =>
    callee.piece :: parenthesized (commaSeparated (exprListPieces args))
  | .callValue callee args _ =>
    operand (Expr.calleeNeeds callee) (exprPieces callee) ++
      parenthesized (commaSeparated (exprListPieces args))
  | .tuple elements _ => Expr.tuplePieces (exprListPieces elements)
  | .path p => p.pieces

def exprListPieces : List Expr → List (List Piece)
  | [] => []
  | e :: es => exprPieces e :: exprListPieces es

def blockPieces : Block → List Piece
  | ⟨stmts, tail, _⟩ => Block.bracePieces (stmtListPieces stmts ++ tailPieces tail)

def tailPieces : Option Expr → List (List Piece)
  | none => []
  | some value => [exprPieces value]

def stmtListPieces : List Stmt → List (List Piece)
  | [] => []
  | s :: ss => stmtPieces s :: stmtListPieces ss

def stmtPieces : Stmt → List Piece
  | .expr e _ => exprPieces e ++ [fixed .semicolon]
  | .binding mutable name value _ =>
    let keywords := if mutable then [word Keyword.letKey.text, space, word Keyword.varKey.text]
      else [word Keyword.letKey.text]
    keywords ++ [space, name.piece, space, fixed .assign, space] ++ exprPieces value ++
      [fixed .semicolon]
  | .function kind name params body _ =>
    Expr.headerPieces kind (some name) params ++ blockPieces body
  | .returning value _ =>
    word Keyword.returnKey.text :: space :: exprPieces value ++ [fixed .semicolon]
  | .importResource resource localName _ =>
    [word Keyword.importKey.text, space, word Keyword.externKey.text, space, resource.piece,
      space, word Keyword.asKey.text, space, localName.piece, fixed .semicolon]
  | .importPath p _ =>
    word Keyword.importKey.text :: space :: p.pieces ++ [fixed .semicolon]

end

end Tree

namespace Program

/-- The layout of a program, one statement a line. -/
def pieces (program : Program) : List Piece :=
  [newline].intercalate (Tree.stmtListPieces program.body)

/-- The program as source text. -/
def print (program : Program) : String :=
  Piece.render program.pieces

end Program

end FrontEnd
