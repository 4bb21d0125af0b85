import FrontEnd.Lexical.Numeral
import FrontEnd.Lexical.Scan

/-! The patterns that decide which rule owns the text at the cursor. A pattern matches at the start
of a text or not at all, and what it matches may be less than what the rule reads. -/
namespace FrontEnd.Lexical

inductive Pattern where
  | blanks
  | lineComment
  | blockComment
  | string
  | rawString
  | character
  | number
  | word
  | operator
deriving DecidableEq

namespace Pattern

/-- The patterns in the order in which they are tried. -/
def all : List Pattern :=
  [.blanks, .lineComment, .blockComment, .string, .rawString, .character, .number, .word,
   .operator]

/-- The alternatives for operators: ten of two characters, and a class of single ones. -/
def operators : List (List Char) :=
  ["<<", ">>", "<=", ">=", "==", "!=", "&&", "||", "->", "::"].map String.toList ++
    "()\x7b\x7d[];,.:=+-*/%!<>&|^~?@".toList.map fun c => [c]

/-- The fixed text, if the text starts with it. -/
def literal? (start text : List Char) : Option (List Char) :=
  if start.isPrefixOf text then some start else none

/-- The start of the text that the pattern matches. -/
def match? : Pattern → List Char → Option (List Char)
  | .blanks, text =>
    let run := text.takeWhile Text.isBlank
    if run.isEmpty then none else some run
  | .lineComment, text =>
    (literal? ['/', '/'] text).map fun start =>
      start ++ (text.drop start.length).takeWhile (· != '\n')
  | .blockComment, text => literal? ['/', '*'] text
  | .string, text => literal? ['"'] text
  | .rawString, text => literal? ['r', '"'] text
  | .character, text => literal? ['\''] text
  | .number, text =>
    match text with
    | [] => none
    | c :: rest =>
      if c.isDigit then some [c]
      else if c = '.' ∧ rest.head?.any Char.isDigit then some (c :: rest.take 1)
      else none
  | .word, text =>
    match text with
    | [] => none
    | c :: rest => if opensWord c then some (c :: rest.takeWhile continuesWord) else none
  | .operator, text => operators.find? (·.isPrefixOf text)

/-- The number of bytes that the pattern matches, none if it does not match. -/
def matchedBytes (pattern : Pattern) (text : List Char) : Nat :=
  ((pattern.match? text).map Text.byteLength).getD 0

end Pattern

end FrontEnd.Lexical
