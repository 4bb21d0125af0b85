import FrontEnd.Radix
import FrontEnd.Text.Position
import FrontEnd.Text.Quoted

/-! Lexical errors: what is wrong with a text, and where the lexeme starts that is wrong. -/
namespace FrontEnd

/-- What is wrong with a lexeme. A fragment is the part of the text that shows it. -/
inductive LexicalCause where
  | unterminatedString
  | unterminatedRawString
  | unterminatedCharacter
  | unterminatedComment
  | emptyCharacter
  | invalidHexEscape (fragment : String)
  | invalidUnicodeEscape (fragment : String)
  | invalidBracedEscape (fragment : String)
  | invalidRadixLiteral (radix : Radix) (fragment : String)
  | invalidNumber (fragment : String)
  | invalidFloat (fragment : String)
  | invalidExponent (fragment : String)
  | unexpectedCharacter (character : Char) (code : Nat)
deriving DecidableEq

namespace LexicalCause

def name : LexicalCause → String
  | .unterminatedString => "UnterminatedString"
  | .unterminatedRawString => "UnterminatedRawString"
  | .unterminatedCharacter => "UnterminatedChar"
  | .unterminatedComment => "UnterminatedBlockComment"
  | .emptyCharacter => "EmptyChar"
  | .invalidHexEscape _ => "InvalidHexEscape"
  | .invalidUnicodeEscape _ => "InvalidUnicodeEscape"
  | .invalidBracedEscape _ => "InvalidExtendedUnicodeEscape"
  | .invalidRadixLiteral _ _ => "InvalidRadixLiteral"
  | .invalidNumber _ => "InvalidNumber"
  | .invalidFloat _ => "InvalidFloat"
  | .invalidExponent _ => "InvalidExponent"
  | .unexpectedCharacter _ _ => "UnexpectedCharacter"

def message : LexicalCause → String
  | .unterminatedString => "Unterminated string literal"
  | .unterminatedRawString => "Unterminated raw string literal"
  | .unterminatedCharacter => "Unterminated char literal"
  | .unterminatedComment => "Unterminated block comment"
  | .emptyCharacter => "Empty char literal"
  | .invalidHexEscape fragment => "Invalid hex escape sequence `" ++ fragment ++ "`"
  | .invalidUnicodeEscape fragment => "Invalid unicode escape sequence `" ++ fragment ++ "`"
  | .invalidBracedEscape fragment =>
    "Invalid extended unicode escape sequence `" ++ fragment ++ "`"
  | .invalidRadixLiteral radix fragment =>
    "Invalid " ++ radix.text ++ " literal `" ++ fragment ++ "`"
  | .invalidNumber fragment => "Invalid number literal `" ++ fragment ++ "`"
  | .invalidFloat fragment => "Invalid float literal `" ++ fragment ++ "`"
  | .invalidExponent fragment => "Invalid exponent literal `" ++ fragment ++ "`"
  | .unexpectedCharacter character code =>
    "Unexpected token `" ++ String.singleton character ++ "` (0x" ++
      String.ofList (Text.hexText code) ++ ")"

end LexicalCause

structure LexicalError where
  cause : LexicalCause
  position : Position
deriving DecidableEq

namespace LexicalError

def message (e : LexicalError) : String :=
  e.cause.message ++ " at " ++ e.position.text

end LexicalError

end FrontEnd
