import FrontEnd.Lexical.Numeral
import FrontEnd.Lexical.Quoted
import FrontEnd.Lexical.Trivia
import FrontEnd.Text.Cursor

/-! From a source text to its tokens. The rules are tried in order at the cursor, and the first
that applies owns the next stretch of text. The first error ends the scan. -/
namespace FrontEnd

namespace Lexical

def opensWord (c : Char) : Bool :=
  c.isAlpha || c == '_'

def continuesWord (c : Char) : Bool :=
  c.isAlphanum || c == '_'

def word (text : List Char) : Reading :=
  .plain .word (text.takeWhile continuesWord) none

/-- The first entry of the table of fixed tokens that the text starts with. -/
def fixedToken? (text : List Char) : Option (String × TokenKind) :=
  TokenKind.fixed.find? fun entry => entry.1.toList.isPrefixOf text

/-- A fixed token at the start of a text that begins with `c`. -/
def fixedToken (c : Char) (rest : List Char) : Except LexicalCause Reading :=
  match fixedToken? (c :: rest) with
  | some (text, kind) => .ok (.plain kind text.toList none)
  | none => .error (.unexpectedCharacter c c.toNat)

/-- Reads the next stretch of a text that begins with `c`. -/
def read (c : Char) (rest : List Char) : Except LexicalCause Reading :=
  if Text.isBlank c then .ok (blanks (c :: rest))
  else if c = '/' ∧ rest.head? = some '/' then .ok (lineComment (c :: rest))
  else if c = '/' ∧ rest.head? = some '*' then blockComment rest.tail
  else if c = '"' then string rest
  else if c = 'r' ∧ rest.head? = some '"' then rawString rest.tail
  else if c = '\'' then character rest
  else if opensNumber c rest then number (c :: rest)
  else if opensWord c then .ok (word (c :: rest))
  else fixedToken c rest

/-- The tokens from the cursor on, the first of them at `index`. Every round reads at least one
character, so one round more than there are characters is enough. -/
def scan : Nat → Nat → TextCursor → Except (Failure LexicalError) (List Token)
  | 0, _, _ => .error (.fault .stuck)
  | rounds + 1, index, cursor =>
    match cursor.rest with
    | [] => .ok [.endMark cursor.offset index]
    | c :: rest =>
      match read c rest with
      | .error cause => .error (.refused ⟨cause, cursor.position⟩)
      | .ok reading =>
        match cursor.skip (Text.byteLength reading.text) with
        | .error fault => .error (.fault fault)
        | .ok next =>
          match reading.lexeme with
          | none => scan rounds index next
          | some lexeme =>
            match scan rounds (index + 1) next with
            | .error failure => .error failure
            | .ok tokens => .ok (⟨lexeme, ⟨cursor.offset, next.offset⟩, index⟩ :: tokens)

end Lexical

/-- The tokens of a source text, closed by one end mark. -/
def Token.ofSource (source : String) : Except (Failure LexicalError) (List Token) :=
  let cursor := TextCursor.ofSource source
  Lexical.scan (cursor.rest.length + 1) 0 cursor

end FrontEnd
