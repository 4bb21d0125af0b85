import FrontEnd.Text.Hidden

/-! Texts in double quotes, with every character that would not show written as an escape. -/
namespace FrontEnd.Text

/-- The least number of lower case hexadecimal digits that write `n`. -/
def hexText (n : Nat) : List Char :=
  Nat.toDigits 16 n

/-- The written form of one character inside double quotes. -/
def escapeChar (c : Char) : List Char :=
  if c = '"' then ['\\', '"']
  else if c = '\\' then ['\\', '\\']
  else if c = '\t' then ['\\', 't']
  else if c = '\n' then ['\\', 'n']
  else if c = '\r' then ['\\', 'r']
  else if c = '\x00' then ['\\', '0']
  else if isHidden c then ['\\', 'u', '\x7b'] ++ hexText c.toNat ++ ['\x7d']
  else [c]

/-- The written form of a text, its quotes included. -/
def quote (text : String) : String :=
  String.ofList ('"' :: (text.toList.flatMap escapeChar ++ ['"']))

end FrontEnd.Text
