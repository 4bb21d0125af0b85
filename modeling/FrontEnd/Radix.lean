/-! Bases of integer literals. -/
namespace FrontEnd

/-- Hexadecimal digits, in both cases of the letters. -/
def isHexDigit (c : Char) : Bool :=
  c.isDigit || (decide ('a' ≤ c) && decide (c ≤ 'f')) || (decide ('A' ≤ c) && decide (c ≤ 'F'))

inductive Radix where
  | decimal
  | hex
  | octal
  | binary
deriving DecidableEq

namespace Radix

def all : List Radix := [.decimal, .hex, .octal, .binary]

/-- The radixes whose literals open with a mark of their own, in the order they are tried. -/
def marked : List Radix := [.hex, .octal, .binary]

def name : Radix → String
  | .decimal => "Decimal"
  | .hex => "Hex"
  | .octal => "Octal"
  | .binary => "Binary"

/-- The word for the radix in messages. -/
def text : Radix → String
  | .decimal => "decimal"
  | .hex => "hex"
  | .octal => "octal"
  | .binary => "binary"

/-- What a literal of this radix opens with. -/
def mark : Radix → String
  | .decimal => ""
  | .hex => "0x"
  | .octal => "0o"
  | .binary => "0b"

def isDigit : Radix → Char → Bool
  | .decimal, c => c.isDigit
  | .hex, c => isHexDigit c
  | .octal, c => decide ('0' ≤ c) && decide (c ≤ '7')
  | .binary, c => c == '0' || c == '1'

end Radix

end FrontEnd
