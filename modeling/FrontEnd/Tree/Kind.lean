import FrontEnd.Token.Basic

/-! The kinds of literals, expressions and statements, with the words for them in messages. -/
namespace FrontEnd

inductive LiteralKind where
  | integer (radix : Radix)
  | float
  | string
  | rawString
  | character
deriving DecidableEq

namespace LiteralKind

def name : LiteralKind → String
  | .integer radix => "Int(" ++ radix.name ++ ")"
  | .float => "Float"
  | .string => "Str"
  | .rawString => "RawStr"
  | .character => "Char"

/-- The kind of literal that a lexeme is. An integer without a radix is decimal. -/
def ofLexeme? (lexeme : Lexeme) : Option LiteralKind :=
  match lexeme.kind with
  | .integer => some (.integer (lexeme.radix.getD .decimal))
  | .float => some .float
  | .string => some .string
  | .rawString => some .rawString
  | .character => some .character
  | _ => none

/-- The lexeme of a literal with the given value. -/
def lexeme (kind : LiteralKind) (value : String) : Lexeme :=
  match kind with
  | .integer radix => ⟨.integer, value, some radix⟩
  | .float => ⟨.float, value, some .decimal⟩
  | .string => ⟨.string, value, none⟩
  | .rawString => ⟨.rawString, value, none⟩
  | .character => ⟨.character, value, none⟩

@[simp] theorem ofLexeme?_lexeme (kind : LiteralKind) (value : String) :
    ofLexeme? (kind.lexeme value) = some kind := by
  cases kind <;> rfl

end LiteralKind

inductive ExprKind where
  | literal
  | ident
  | binary
  | unary
  | block
  | function
  | call
  | callValue
  | tuple
  | path
deriving DecidableEq

namespace ExprKind

def all : List ExprKind :=
  [.literal, .ident, .binary, .unary, .block, .function, .call, .callValue, .tuple, .path]

def name : ExprKind → String
  | .literal => "Literal"
  | .ident => "Identifier"
  | .binary => "Binary"
  | .unary => "Unary"
  | .block => "Block"
  | .function => "Fn"
  | .call => "FnCall"
  | .callValue => "ImmediateCall"
  | .tuple => "Tuple"
  | .path => "PathQualifier"

def text : ExprKind → String
  | .literal => "literal"
  | .ident => "identifier"
  | .binary => "binary expression"
  | .unary => "unary expression"
  | .block => "block"
  | .function => "function expression"
  | .call => "function call"
  | .callValue => "immediate call"
  | .tuple => "tuple"
  | .path => "path qualifier"

end ExprKind

inductive StmtKind where
  | expr
  | binding
  | function
  | returning
  | importing
deriving DecidableEq

namespace StmtKind

def all : List StmtKind := [.expr, .binding, .function, .returning, .importing]

def name : StmtKind → String
  | .expr => "ExpressionStmt"
  | .binding => "VarDeclStmt"
  | .function => "FnDeclStmt"
  | .returning => "ReturnStmt"
  | .importing => "ImportStmt"

def text : StmtKind → String
  | .expr => "expression statement"
  | .binding => "variable declaration"
  | .function => "function declaration"
  | .returning => "return statement"
  | .importing => "import statement"

end StmtKind

end FrontEnd
