import FrontEnd.Token.Basic

/-! Operations and the operators that stand for them: which token means which operation before or
between operands, and how tightly it binds. -/
namespace FrontEnd

inductive Operation where
  | cast
  | add
  | subtract
  | multiply
  | divide
  | modulus
  | less
  | lessEqual
  | greater
  | greaterEqual
  | bitAnd
  | bitXor
  | bitOr
  | shiftLeft
  | shiftRight
  | logicalAnd
  | logicalOr
  | equal
  | notEqual
  | assign
  | logicalNot
  | negate
  | plus
deriving DecidableEq

/-- How a chain of operators of one precedence groups. Operations with one operand do not chain. -/
inductive Associativity where
  | left
  | right
  | none
deriving DecidableEq

namespace Associativity

def name : Associativity → String
  | .left => "Left"
  | .right => "Right"
  | .none => "None"

end Associativity

/-- How tightly an operator before its operand binds. -/
def prefixPrecedence : Nat := 50

/-- How tightly calls, and expressions without operators, bind. -/
def callPrecedence : Nat := 100

namespace Operation

def all : List Operation :=
  [.cast, .add, .subtract, .multiply, .divide, .modulus, .less, .lessEqual, .greater,
   .greaterEqual, .bitAnd, .bitXor, .bitOr, .shiftLeft, .shiftRight, .logicalAnd, .logicalOr,
   .equal, .notEqual, .assign, .logicalNot, .negate, .plus]

def name : Operation → String
  | .cast => "Cast"
  | .add => "Add"
  | .subtract => "Subtract"
  | .multiply => "Multiply"
  | .divide => "Divide"
  | .modulus => "Modulus"
  | .less => "Less"
  | .lessEqual => "LessEqual"
  | .greater => "Greater"
  | .greaterEqual => "GreaterEqual"
  | .bitAnd => "BitAnd"
  | .bitXor => "BitXor"
  | .bitOr => "BitOr"
  | .shiftLeft => "ShiftLeft"
  | .shiftRight => "ShiftRight"
  | .logicalAnd => "LogicalAnd"
  | .logicalOr => "LogicalOr"
  | .equal => "Equal"
  | .notEqual => "NotEqual"
  | .assign => "Assign"
  | .logicalNot => "Not"
  | .negate => "Negate"
  | .plus => "Plus"

/-- The lexeme that stands for the operation. -/
def lexeme : Operation → Lexeme
  | .cast => .word Keyword.asKey.text
  | .add => .fixed .plus
  | .subtract => .fixed .dash
  | .multiply => .fixed .star
  | .divide => .fixed .slash
  | .modulus => .fixed .percent
  | .less => .fixed .less
  | .lessEqual => .fixed .lessEquals
  | .greater => .fixed .greater
  | .greaterEqual => .fixed .greaterEquals
  | .bitAnd => .fixed .ampersand
  | .bitXor => .fixed .caret
  | .bitOr => .fixed .pipe
  | .shiftLeft => .fixed .shiftLeft
  | .shiftRight => .fixed .shiftRight
  | .logicalAnd => .fixed .doubleAmpersand
  | .logicalOr => .fixed .doublePipe
  | .equal => .fixed .equals
  | .notEqual => .fixed .notEquals
  | .assign => .fixed .assign
  | .logicalNot => .fixed .exclamation
  | .negate => .fixed .dash
  | .plus => .fixed .plus

/-- The operation as it is written. -/
def symbol (operation : Operation) : String :=
  operation.lexeme.text

/-- What the lexeme means between two operands. -/
def binary? (lexeme : Lexeme) : Option Operation :=
  match lexeme.kind with
  | .plus => some .add
  | .dash => some .subtract
  | .star => some .multiply
  | .slash => some .divide
  | .percent => some .modulus
  | .less => some .less
  | .lessEquals => some .lessEqual
  | .greater => some .greater
  | .greaterEquals => some .greaterEqual
  | .ampersand => some .bitAnd
  | .caret => some .bitXor
  | .pipe => some .bitOr
  | .shiftLeft => some .shiftLeft
  | .shiftRight => some .shiftRight
  | .doubleAmpersand => some .logicalAnd
  | .doublePipe => some .logicalOr
  | .equals => some .equal
  | .notEquals => some .notEqual
  | .assign => some .assign
  | .word => if lexeme.isKeyword .asKey then some .cast else none
  | _ => none

/-- What the lexeme means before an operand. -/
def unary? (lexeme : Lexeme) : Option Operation :=
  match lexeme.kind with
  | .dash => some .negate
  | .plus => some .plus
  | .exclamation => some .logicalNot
  | _ => none

/-- What the lexeme means in the given place. -/
def ofLexeme? (lexeme : Lexeme) : Fixity → Option Operation
  | .before => unary? lexeme
  | .between => binary? lexeme

def isUnary : Operation → Bool
  | .logicalNot => true
  | .negate => true
  | .plus => true
  | _ => false

/-- How tightly the operation binds its two operands. -/
def precedence : Operation → Option Nat
  | .cast => some 14
  | .multiply | .divide | .modulus => some 13
  | .add | .subtract => some 12
  | .shiftLeft | .shiftRight => some 11
  | .bitAnd => some 10
  | .bitXor => some 9
  | .bitOr => some 8
  | .less | .lessEqual | .greater | .greaterEqual | .equal | .notEqual => some 7
  | .logicalAnd => some 6
  | .logicalOr => some 5
  | .assign => some 2
  | .logicalNot | .negate | .plus => none

def associativity : Operation → Associativity
  | .cast => .right
  | .logicalNot | .negate | .plus => .none
  | _ => .left

/-- Every operation is read back from its own lexeme. -/
theorem ofLexeme?_lexeme (operation : Operation) :
    ofLexeme? operation.lexeme (if operation.isUnary then .before else .between) =
      some operation := by
  cases operation <;> rfl

/-- Exactly the operations with one operand have no precedence between operands. -/
theorem precedence_eq_none_iff (operation : Operation) :
    operation.precedence = none ↔ operation.isUnary = true := by
  cases operation <;> simp [precedence, isUnary]

theorem precedence_lt_prefixPrecedence {operation : Operation} {level : Nat}
    (h : operation.precedence = some level) : level < prefixPrecedence := by
  cases operation <;> simp_all [precedence, prefixPrecedence] <;> omega

end Operation

namespace Lexeme

/-- Precedence and associativity of the lexeme between two operands. -/
def bindingPower? (lexeme : Lexeme) : Option (Nat × Associativity) :=
  match Operation.binary? lexeme with
  | none => none
  | some operation =>
    match operation.precedence with
    | none => none
    | some level => some (level, operation.associativity)

end Lexeme

/-- An operation where it stands in a tree. -/
structure Operator where
  operation : Operation
  span : TokenRange
deriving DecidableEq

namespace Operator

/-- The operator that the token stands for in the given place. Callers have looked before that
there is one. -/
def ofToken (token : Token) (fixity : Fixity) : Except Fault Operator :=
  match Operation.ofLexeme? token.toLexeme fixity with
  | some operation => .ok ⟨operation, .single token.index⟩
  | none => .error (.misplacedOperator token.text fixity)

/-- As `ofToken`, where the place of the token has to be an address. -/
def ofTokenChecked (token : Token) (fixity : Fixity) : Except Fault Operator := do
  let operator ← ofToken token fixity
  let span ← TokenRange.singleChecked token.index
  .ok { operator with span }

end Operator

end FrontEnd
