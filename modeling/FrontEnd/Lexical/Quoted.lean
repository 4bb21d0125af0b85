import FrontEnd.Lexical.Reading

/-! Literals in quotes: strings, raw strings and characters. Their values keep escapes as they are
written. -/
namespace FrontEnd.Lexical

/-- A literal in quotes does not run over the end of a line. -/
def isLineEnd (c : Char) : Bool :=
  c == '\n' || c == '\r'

/-- The text before the closing quote of a string, where a backslash takes the next character
with it. -/
def stringBody : List Char → Option (List Char)
  | [] => none
  | '"' :: _ => some []
  | '\\' :: c :: rest =>
    if isLineEnd c then none else (stringBody rest).map fun body => '\\' :: c :: body
  | c :: rest => if isLineEnd c then none else (stringBody rest).map (c :: ·)

/-- The text before the closing quote of a raw string. -/
def rawStringBody : List Char → Option (List Char)
  | [] => none
  | '"' :: _ => some []
  | c :: rest => if isLineEnd c then none else (rawStringBody rest).map (c :: ·)

/-- A string whose opening quote is followed by `rest`. -/
def string (rest : List Char) : Except LexicalCause Reading :=
  match stringBody rest with
  | some body => .ok (.enclosed .string ['"'] body ['"'])
  | none => .error .unterminatedString

/-- A raw string whose opening mark is followed by `rest`. -/
def rawString (rest : List Char) : Except LexicalCause Reading :=
  match rawStringBody rest with
  | some body => .ok (.enclosed .rawString ['r', '"'] body ['"'])
  | none => .error .unterminatedRawString

/-- The escape whose backslash is followed by the given text: two digits after `x`, one to six
digits in braces or four digits after `u`, or any one character. All digits that are there are
counted. -/
def escape : List Char → Except LexicalCause (List Char)
  | [] => .error .unterminatedCharacter
  | 'x' :: rest =>
    let digits := rest.takeWhile isHexDigit
    let text := '\\' :: 'x' :: digits
    if digits.length = 2 then .ok text else .error (.invalidHexEscape (String.ofList text))
  | 'u' :: '\x7b' :: rest =>
    let digits := rest.takeWhile isHexDigit
    let opened := '\\' :: 'u' :: '\x7b' :: digits
    if (rest.drop digits.length).head? = some '\x7d' then
      let text := opened ++ ['\x7d']
      if 1 ≤ digits.length ∧ digits.length ≤ 6 then .ok text
      else .error (.invalidBracedEscape (String.ofList text))
    else .error (.invalidBracedEscape (String.ofList opened))
  | 'u' :: rest =>
    let digits := rest.takeWhile isHexDigit
    let text := '\\' :: 'u' :: digits
    if digits.length = 4 then .ok text else .error (.invalidUnicodeEscape (String.ofList text))
  | c :: _ => if isLineEnd c then .error .unterminatedCharacter else .ok ['\\', c]

/-- The one character, or the escape, that a character literal holds. -/
def characterBody : List Char → Except LexicalCause (List Char)
  | [] => .error .unterminatedCharacter
  | '\'' :: _ => .error .emptyCharacter
  | '\\' :: rest => escape rest
  | c :: _ => if isLineEnd c then .error .unterminatedCharacter else .ok [c]

/-- A character literal whose opening quote is followed by `rest`. -/
def character (rest : List Char) : Except LexicalCause Reading := do
  let body ← characterBody rest
  if (rest.drop body.length).head? = some '\'' then
    .ok (.enclosed .character ['\''] body ['\''])
  else .error .unterminatedCharacter

end FrontEnd.Lexical
