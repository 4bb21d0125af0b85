import FrontEnd.Keyword
import FrontEnd.Radix
import FrontEnd.Range
import FrontEnd.Token.Kind

/-! Lexemes and tokens. A lexeme is what a token says; a token is a lexeme with its place in the
source text and in the token list. -/
namespace FrontEnd

/-- The value is the text of the token without the quotes of a literal. Numbers have a radix. -/
structure Lexeme where
  kind : TokenKind
  value : String
  radix : Option Radix
deriving DecidableEq

namespace Lexeme

/-- The lexeme that closes every token list. -/
def endMark : Lexeme := ⟨.endMark, "EOF", none⟩

def word (value : String) : Lexeme := ⟨.word, value, none⟩

/-- The lexeme of a fixed token. -/
def fixed (kind : TokenKind) : Lexeme := ⟨kind, kind.spelling, none⟩

/-- The lexeme as it is written in a source text. -/
def text (lexeme : Lexeme) : String :=
  match lexeme.kind with
  | .endMark => "EOF"
  | .string => "\"" ++ lexeme.value ++ "\""
  | .rawString => "r\"" ++ lexeme.value ++ "\""
  | .character => "'" ++ lexeme.value ++ "'"
  | _ => lexeme.value

/-- The keyword that the lexeme spells, if it is a word that spells one. -/
def keyword? (lexeme : Lexeme) : Option Keyword :=
  if lexeme.kind = .word then Keyword.ofText? lexeme.value else none

def isKeyword (lexeme : Lexeme) (keyword : Keyword) : Bool :=
  lexeme.keyword? == some keyword

/-- Whether the lexeme is a keyword that opens a statement. -/
def opensStatement (lexeme : Lexeme) : Bool :=
  match lexeme.keyword? with
  | some keyword => keyword.opensStatement
  | none => false

theorem kind_eq_word_of_keyword? {lexeme : Lexeme} {keyword : Keyword}
    (h : lexeme.keyword? = some keyword) : lexeme.kind = .word := by
  unfold keyword? at h
  split at h
  · assumption
  · cases h

end Lexeme

/-- A lexeme, the bytes it was read from, and its index in the token list. -/
structure Token extends Lexeme where
  span : ByteRange
  index : Nat
deriving DecidableEq

namespace Token

/-- The end mark of a token list, at byte `offset`. -/
def endMark (offset index : Nat) : Token :=
  { toLexeme := .endMark, span := ⟨offset, offset⟩, index := index }

end Token

namespace TokenRange

/-- The bytes that a range of tokens covers. An index behind the list stands for its last token.
A range that ends in front of the list has no last token. -/
def bytes (r : TokenRange) (tokens : List Token) : Except Fault ByteRange :=
  match tokens[min r.start (tokens.length - 1)]? with
  | none => .ok ⟨0, 0⟩
  | some first =>
    if r.isEmpty then .ok ⟨first.span.start, first.span.start⟩
    else if r.stop = 0 then .error .overflow
    else
      match tokens[min (r.stop - 1) (tokens.length - 1)]? with
      | none => .error .outOfRange
      | some last => .ok ⟨first.span.start, max last.span.stop first.span.start⟩

end TokenRange

end FrontEnd
