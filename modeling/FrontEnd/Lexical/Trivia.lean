import FrontEnd.Lexical.Reading
import FrontEnd.Text.Blank

/-! Blanks and comments. -/
namespace FrontEnd.Lexical

/-- The longest run of blanks at the start of the text. -/
def blanks (text : List Char) : Reading :=
  .trivia (text.takeWhile Text.isBlank)

/-- The text up to the end of its line. -/
def lineComment (text : List Char) : Reading :=
  .trivia (text.takeWhile (· != '\n'))

/-- The text up to and including the first closing mark of a comment. -/
def commentBody : List Char → Option (List Char)
  | [] => none
  | '*' :: '/' :: _ => some ['*', '/']
  | c :: rest => (commentBody rest).map (c :: ·)

/-- A comment whose opening mark is followed by `rest`. -/
def blockComment (rest : List Char) : Except LexicalCause Reading :=
  match commentBody rest with
  | some body => .ok (.trivia ('/' :: '*' :: body))
  | none => .error .unterminatedComment

end FrontEnd.Lexical
