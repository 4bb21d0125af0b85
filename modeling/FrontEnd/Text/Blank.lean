import FrontEnd.Text.CharRange

/-! The characters that separate lexemes: blanks, and the punctuation of the ASCII range. -/
namespace FrontEnd.Text

/-- The characters of the Unicode property White_Space. -/
def blankTable : List CharRange :=
  [⟨0x9, 0xD⟩, ⟨0x20, 0x20⟩, ⟨0x85, 0x85⟩, ⟨0xA0, 0xA0⟩, ⟨0x1680, 0x1680⟩, ⟨0x2000, 0x200A⟩,
   ⟨0x2028, 0x2029⟩, ⟨0x202F, 0x202F⟩, ⟨0x205F, 0x205F⟩, ⟨0x3000, 0x3000⟩]

def isBlank (c : Char) : Bool :=
  CharRange.anyContains blankTable c

/-- The visible ASCII characters that are neither letters nor digits. -/
def punctuationTable : List CharRange :=
  [⟨0x21, 0x2F⟩, ⟨0x3A, 0x40⟩, ⟨0x5B, 0x60⟩, ⟨0x7B, 0x7E⟩]

/-- ASCII punctuation other than the underscore, which belongs to words and numbers. -/
def isPunctuation (c : Char) : Bool :=
  CharRange.anyContains punctuationTable c && c != '_'

end FrontEnd.Text
