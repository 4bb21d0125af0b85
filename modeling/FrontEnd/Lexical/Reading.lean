import FrontEnd.Lexical.Error
import FrontEnd.Token.Basic

/-! What a lexical rule reads at a place of the text. -/
namespace FrontEnd

/-- The text that a rule reads, and the lexeme it stands for; blanks and comments stand for
none. -/
structure Reading where
  text : List Char
  lexeme : Option Lexeme
deriving DecidableEq

namespace Reading

/-- Text that separates lexemes. -/
def trivia (text : List Char) : Reading :=
  ⟨text, none⟩

/-- A lexeme whose value is the text it was read from. -/
def plain (kind : TokenKind) (text : List Char) (radix : Option Radix) : Reading :=
  ⟨text, some ⟨kind, String.ofList text, radix⟩⟩

/-- A literal whose value stands between an opening and a closing mark. -/
def enclosed (kind : TokenKind) (opening body closing : List Char) : Reading :=
  ⟨opening ++ body ++ closing, some ⟨kind, String.ofList body, none⟩⟩

end Reading

end FrontEnd
