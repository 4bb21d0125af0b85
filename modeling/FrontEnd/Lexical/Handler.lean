import FrontEnd.Lexical.Pattern
import FrontEnd.Text.Slice

/-! The lexical rules in bytes. A handler gets the text at the cursor once its pattern matches,
counts the bytes that its lexeme takes and slices the value out of the text. Every slice is checked,
and one that does not exist is a fault. -/
namespace FrontEnd.Lexical

open Text

/-- What a handler has found: how many bytes it passes, and the lexeme it makes of them. -/
structure Extent where
  bytes : Nat
  lexeme : Option Lexeme
deriving DecidableEq

/-- The result of a handler, or why there is none. -/
abbrev Handled (α : Type) : Type :=
  Except (Failure LexicalCause) α

variable {α : Type}

def refuse (cause : LexicalCause) : Handled α :=
  .error (.refused cause)

/-- Refuses a text and shows its first `stop` bytes. -/
def refuseUpTo (cause : String → LexicalCause) (stop : Nat) (text : List Char) : Handled α := do
  let fragment ← sliceTo stop text
  refuse (cause (String.ofList fragment))

/-- A lexeme whose value is the first `stop` bytes of the text. -/
def take (kind : TokenKind) (radix : Option Radix) (stop : Nat) (text : List Char) :
    Handled Extent := do
  let value ← sliceTo stop text
  .ok ⟨stop, some ⟨kind, String.ofList value, radix⟩⟩

/-- The comment is closed by the first mark behind its opening one. -/
def handleComment (text : List Char) : Handled Extent := do
  let body ← sliceFrom 2 text
  match find? ['*', '/'] body with
  | some offset => .ok ⟨offset + 4, none⟩
  | none => refuse .unterminatedComment

/-- The byte offset of the closing quote of a string, where the text starts at byte `i`. -/
def quoteOffset (escapes : Bool) (i : Nat) : List Char → Option Nat
  | [] => none
  | c :: rest =>
    if c = '"' then some i
    else if isLineEnd c then none
    else if c = '\\' ∧ escapes = true then
      match rest with
      | [] => none
      | d :: rest =>
        if isLineEnd d then none else quoteOffset escapes (i + c.utf8Size + d.utf8Size) rest
    else quoteOffset escapes (i + c.utf8Size) rest

/-- A string behind an opening mark of the given number of bytes. -/
def handleString (kind : TokenKind) (unterminated : LexicalCause) (opening : Nat)
    (text : List Char) : Handled Extent := do
  let rest ← sliceFrom opening text
  match quoteOffset (kind == .string) 0 rest with
  | some length =>
    let value ← sliceTo length rest
    .ok ⟨opening + length + 1, some ⟨kind, String.ofList value, none⟩⟩
  | none => refuse unterminated

/-- How many hexadecimal digits the text starts with. -/
def hexDigits (text : List Char) : Nat :=
  (text.takeWhile isHexDigit).length

/-- The bytes of an escape with a digit count of its own, two of them before the digits. -/
def digitsEscape (count : Nat) (cause : String → LexicalCause) (text : List Char) :
    Handled Nat := do
  let digits := hexDigits (← sliceFrom 2 text)
  if digits = count then .ok (2 + count) else refuseUpTo cause (2 + digits) text

/-- The bytes of an escape with digits in braces. -/
def bracedEscape (text : List Char) : Handled Nat := do
  let digits := hexDigits (← sliceFrom 3 text)
  let closed := (← sliceFrom (3 + digits) text).head? == some '\x7d'
  if 1 ≤ digits ∧ digits ≤ 6 ∧ closed = true then .ok (4 + digits)
  else refuseUpTo .invalidBracedEscape (3 + digits + closed.toNat) text

/-- The bytes of what a character literal holds. -/
def characterBytes (text : List Char) : Handled Nat :=
  match text with
  | [] => refuse .unterminatedCharacter
  | '\'' :: _ => refuse .emptyCharacter
  | '\\' :: rest =>
    match rest with
    | [] => refuse .unterminatedCharacter
    | 'x' :: _ => digitsEscape 2 .invalidHexEscape text
    | 'u' :: _ => do
      if (← sliceFrom 2 text).head? = some '\x7b' then bracedEscape text
      else digitsEscape 4 .invalidUnicodeEscape text
    | c :: _ => if isLineEnd c then refuse .unterminatedCharacter else .ok (1 + c.utf8Size)
  | c :: _ => if isLineEnd c then refuse .unterminatedCharacter else .ok c.utf8Size

def handleCharacter (text : List Char) : Handled Extent := do
  let rest ← sliceFrom 1 text
  let length ← characterBytes rest
  if (← sliceFrom length rest).head? = some '\'' then
    let value ← sliceTo length rest
    .ok ⟨length + 2, some ⟨.character, String.ofList value, none⟩⟩
  else refuse .unterminatedCharacter

/-- Where the digits of a literal with a radix mark end. The characters from byte `stop` on are
given apart from the whole text. -/
def radixStop (radix : Radix) (text : List Char) (stop : Nat) : List Char → Handled Nat
  | [] => .ok stop
  | c :: rest =>
    if radix.isDigit c then radixStop radix text (stop + 1) rest
    else do
      let joins ← if c = '_' then (do .ok ((← sliceTo stop text).getLast? != some '_'))
        else .ok false
      if joins then radixStop radix text (stop + 1) rest
      else if isBlank c || isPunctuation c then .ok stop
      else
        let fragment ← sliceTo stop text
        refuse (.invalidRadixLiteral radix (String.ofList (fragment ++ [c])))

def handleRadix (radix : Radix) (text : List Char) : Handled Extent := do
  let mark := byteLength radix.mark.toList
  let stop ← radixStop radix text mark (← sliceFrom mark text)
  let literal ← sliceTo stop text
  if (← sliceFrom mark literal).getLast?.any radix.isDigit then
    take .integer (some radix) stop text
  else refuse (.invalidRadixLiteral radix (String.ofList literal))

/-- Whether an underscore stands right before byte `stop`. -/
def underscoreBefore (text : List Char) (stop : Nat) : Handled Bool :=
  if 0 < stop then do
    let byte ← byteAt (bytes text) (stop - 1)
    .ok (byte == '_'.toUInt8)
  else .ok false

/-- Where the digits of an exponent start whose mark is byte `stop`, if it has any. -/
def exponentDigits? (text : List Char) (stop : Nat) : Option Nat :=
  let next := (bytes text)[stop + 1]?
  let start := if next = some '+'.toUInt8 ∨ next = some '-'.toUInt8 then stop + 2 else stop + 1
  if (bytes text)[start]?.any isDigitByte then some start else none

/-- Where a decimal literal ends and whether it has a point or an exponent, from byte `stop` on.
Each round passes a byte, so there are at most as many rounds as there are bytes. -/
def decimalStop (text : List Char) : Nat → Nat → Bool → Bool → Handled (Nat × Bool)
  | 0, _, _, _ => .error (.fault .stuck)
  | rounds + 1, stop, isFloat, hasExponent =>
    match (bytes text)[stop]? with
    | none => .ok (stop, isFloat)
    | some byte =>
      if isDigitByte byte then decimalStop text rounds (stop + 1) isFloat hasExponent
      else if byte = '_'.toUInt8 then do
        if ← underscoreBefore text stop then refuseUpTo .invalidNumber (stop + 1) text
        else decimalStop text rounds (stop + 1) isFloat hasExponent
      else if byte = '.'.toUInt8 then
        if isFloat then refuseUpTo .invalidFloat (stop + 1) text
        else decimalStop text rounds (stop + 1) true hasExponent
      else if byte = 'e'.toUInt8 ∨ byte = 'E'.toUInt8 then
        if hasExponent then refuseUpTo .invalidFloat (stop + 1) text
        else
          match exponentDigits? text stop with
          | some start => decimalStop text rounds start true true
          | none => do
            let fragment ← sliceTo (stop + 1) text
            let rest ← sliceFrom (stop + 1) text
            refuse (.invalidExponent (String.ofList (fragment ++ rest.head?.toList)))
      else .ok (stop, isFloat)

def handleDecimal (text : List Char) : Handled Extent := do
  let (stop, isFloat) ← decimalStop text ((bytes text).length + 1) 0 false false
  let literal ← sliceTo stop text
  if literal.getLast? = some '_' then refuse (.invalidNumber (String.ofList literal))
  else take (if isFloat then .float else .integer) (some .decimal) stop text

def handleNumber (text : List Char) : Handled Extent :=
  match Radix.marked.find? fun radix => radix.mark.toList.isPrefixOf text with
  | some radix => handleRadix radix text
  | none => handleDecimal text

/-- The character at the cursor, which starts nothing. -/
def unexpected (text : List Char) : LexicalCause :=
  let c := text.head?.getD '\x00'
  .unexpectedCharacter c c.toNat

def handleOperator (text : List Char) : Handled Extent :=
  match fixedToken? text with
  | some (spelling, kind) => .ok ⟨byteLength spelling.toList, some ⟨kind, spelling, none⟩⟩
  | none => refuse (unexpected text)

/-- The handler of a pattern, on the text at the cursor. -/
def Pattern.handle (pattern : Pattern) (text : List Char) : Handled Extent :=
  let matched := pattern.matchedBytes text
  match pattern with
  | .blanks => .ok ⟨matched, none⟩
  | .lineComment => .ok ⟨matched, none⟩
  | .blockComment => handleComment text
  | .string => handleString .string .unterminatedString matched text
  | .rawString => handleString .rawString .unterminatedRawString matched text
  | .character => handleCharacter text
  | .number => handleNumber text
  | .word => take .word none matched text
  | .operator => handleOperator text

/-- The first pattern that matches owns the text at the cursor. -/
def handle (text : List Char) : Handled Extent :=
  match Pattern.all.find? fun pattern => (pattern.match? text).isSome with
  | some pattern => pattern.handle text
  | none => refuse (unexpected text)

end FrontEnd.Lexical
