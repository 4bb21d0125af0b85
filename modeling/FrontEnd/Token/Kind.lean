/-! The kinds of tokens, and the table of the fixed ones. -/
namespace FrontEnd

inductive TokenKind where
  | endMark
  | string
  | rawString
  | character
  | integer
  | float
  | word
  | openParen
  | closeParen
  | openCurly
  | closeCurly
  | openBracket
  | closeBracket
  | semicolon
  | comma
  | dot
  | colon
  | doubleColon
  | arrow
  | assign
  | equals
  | exclamation
  | notEquals
  | less
  | lessEquals
  | shiftLeft
  | greater
  | greaterEquals
  | shiftRight
  | ampersand
  | doubleAmpersand
  | pipe
  | doublePipe
  | caret
  | tilde
  | question
  | atSign
  | plus
  | dash
  | star
  | slash
  | percent
deriving DecidableEq

namespace TokenKind

def all : List TokenKind :=
  [.endMark, .string, .rawString, .character, .integer, .float, .word, .openParen, .closeParen,
   .openCurly, .closeCurly, .openBracket, .closeBracket, .semicolon, .comma, .dot, .colon,
   .doubleColon, .arrow, .assign, .equals, .exclamation, .notEquals, .less, .lessEquals,
   .shiftLeft, .greater, .greaterEquals, .shiftRight, .ampersand, .doubleAmpersand, .pipe,
   .doublePipe, .caret, .tilde, .question, .atSign, .plus, .dash, .star, .slash, .percent]

def name : TokenKind → String
  | .endMark => "EOF"
  | .string => "StrLiteral"
  | .rawString => "RawStrLiteral"
  | .character => "CharLiteral"
  | .integer => "IntLiteral"
  | .float => "FloatLiteral"
  | .word => "Identifier"
  | .openParen => "OpenParen"
  | .closeParen => "CloseParen"
  | .openCurly => "OpenCurly"
  | .closeCurly => "CloseCurly"
  | .openBracket => "OpenBracket"
  | .closeBracket => "CloseBracket"
  | .semicolon => "Semicolon"
  | .comma => "Comma"
  | .dot => "Dot"
  | .colon => "Colon"
  | .doubleColon => "ColonColon"
  | .arrow => "Arrow"
  | .assign => "Assignment"
  | .equals => "Equals"
  | .exclamation => "Not"
  | .notEquals => "NotEquals"
  | .less => "Less"
  | .lessEquals => "LessEquals"
  | .shiftLeft => "ShiftLeft"
  | .greater => "Greater"
  | .greaterEquals => "GreaterEquals"
  | .shiftRight => "ShiftRight"
  | .ampersand => "Ampersand"
  | .doubleAmpersand => "And"
  | .pipe => "Pipe"
  | .doublePipe => "Or"
  | .caret => "Caret"
  | .tilde => "Tilde"
  | .question => "Question"
  | .atSign => "At"
  | .plus => "Plus"
  | .dash => "Dash"
  | .star => "Star"
  | .slash => "Slash"
  | .percent => "Percent"

/-- The tokens that are always spelled the same, those of two characters first, so that the first
spelling found at a place is the longest one. -/
def fixed : List (String × TokenKind) :=
  [("<<", .shiftLeft), (">>", .shiftRight), ("<=", .lessEquals), (">=", .greaterEquals),
   ("==", .equals), ("!=", .notEquals), ("&&", .doubleAmpersand), ("||", .doublePipe),
   ("->", .arrow), ("::", .doubleColon), ("(", .openParen), (")", .closeParen),
   ("\x7b", .openCurly), ("\x7d", .closeCurly), ("[", .openBracket), ("]", .closeBracket),
   (";", .semicolon), (",", .comma), (".", .dot), (":", .colon), ("=", .assign), ("+", .plus),
   ("-", .dash), ("*", .star), ("/", .slash), ("%", .percent), ("!", .exclamation),
   ("<", .less), (">", .greater), ("&", .ampersand), ("|", .pipe), ("^", .caret),
   ("~", .tilde), ("?", .question), ("@", .atSign)]

/-- The spelling of a fixed token. Other kinds have none. -/
def spelling (kind : TokenKind) : String :=
  match fixed.find? (·.2 == kind) with
  | some (text, _) => text
  | none => ""

end TokenKind

end FrontEnd
