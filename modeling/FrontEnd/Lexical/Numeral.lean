import FrontEnd.Lexical.Reading
import FrontEnd.Text.Blank

/-! Numbers. Single underscores may stand between digits; a literal with a radix mark ends at a
blank or at punctuation, a decimal one where it cannot go on. -/
namespace FrontEnd.Lexical

/-- The digits and single underscores of a literal, and the character that cannot follow them, if
one does. The flag says that an underscore stands right before the text. -/
def radixRun (radix : Radix) : Bool → List Char → List Char × Option Char
  | _, [] => ([], none)
  | underscored, c :: rest =>
    if radix.isDigit c then
      let (run, offender) := radixRun radix false rest
      (c :: run, offender)
    else if c = '_' ∧ underscored = false then
      let (run, offender) := radixRun radix true rest
      (c :: run, offender)
    else if Text.isBlank c || Text.isPunctuation c then ([], none)
    else ([], some c)

/-- A literal whose radix mark is followed by `rest`. Its last character is a digit. -/
def radixLiteral (radix : Radix) (rest : List Char) : Except LexicalCause Reading :=
  let (run, offender) := radixRun radix false rest
  let text := radix.mark.toList ++ run
  match offender with
  | some c => .error (.invalidRadixLiteral radix (String.ofList (text ++ [c])))
  | none =>
    if run.getLast?.any radix.isDigit then .ok (.plain .integer text (some radix))
    else .error (.invalidRadixLiteral radix (String.ofList text))

/-- How a decimal literal ends: before a character that is not part of it, or at a flaw. -/
inductive DecimalEnd where
  | complete (isFloat : Bool)
  | badUnderscore
  | badFloat
  | badExponent
deriving DecidableEq

/-- The characters of a decimal literal up to its end, a flaw included. The flags say that the
literal has a point or an exponent, that it has an exponent, and that an underscore stands right
before the text. -/
def decimalRun (isFloat hasExponent underscored : Bool) : List Char → List Char × DecimalEnd
  | [] => ([], .complete isFloat)
  | c :: rest =>
    if c.isDigit then
      let (run, ending) := decimalRun isFloat hasExponent false rest
      (c :: run, ending)
    else if c = '_' then
      if underscored then ([c], .badUnderscore)
      else
        let (run, ending) := decimalRun isFloat hasExponent true rest
        (c :: run, ending)
    else if c = '.' then
      if isFloat then ([c], .badFloat)
      else
        let (run, ending) := decimalRun true hasExponent false rest
        (c :: run, ending)
    else if c = 'e' ∨ c = 'E' then
      if hasExponent then ([c], .badFloat)
      else if rest.head?.any Char.isDigit then
        let (run, ending) := decimalRun true true false rest
        (c :: run, ending)
      else
        match rest with
        | sign :: digit :: further =>
          if (sign = '+' ∨ sign = '-') ∧ digit.isDigit then
            let (run, ending) := decimalRun true true false further
            (c :: sign :: digit :: run, ending)
          else ([c, sign], .badExponent)
        | _ => (c :: rest, .badExponent)
    else ([], .complete isFloat)

/-- A decimal literal at the start of the text. Its last character is no underscore. -/
def decimalLiteral (text : List Char) : Except LexicalCause Reading :=
  let (run, ending) := decimalRun false false false text
  match ending with
  | .complete isFloat =>
    if run.getLast? = some '_' then .error (.invalidNumber (String.ofList run))
    else .ok (.plain (if isFloat then .float else .integer) run (some .decimal))
  | .badUnderscore => .error (.invalidNumber (String.ofList run))
  | .badFloat => .error (.invalidFloat (String.ofList run))
  | .badExponent => .error (.invalidExponent (String.ofList run))

/-- A number starts with a digit, or with a point and a digit. -/
def opensNumber (c : Char) (rest : List Char) : Bool :=
  c.isDigit || (c == '.' && rest.head?.any Char.isDigit)

/-- A number at the start of the text. -/
def number (text : List Char) : Except LexicalCause Reading :=
  match Radix.marked.find? fun radix => radix.mark.toList.isPrefixOf text with
  | some radix => radixLiteral radix (text.drop radix.mark.length)
  | none => decimalLiteral text

end FrontEnd.Lexical
