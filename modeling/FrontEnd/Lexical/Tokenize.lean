import FrontEnd.Lexical.Handler

/-! From a source text to its tokens, by byte offsets. The cursor moves by what the handlers count,
and line and column are counters of 32 bits. -/
namespace FrontEnd.Lexical

open Text

/-- Lines and columns are numbers of 32 bits. -/
def counterLimit : Nat := 4294967296

/-- A place in a source text by its byte offset, with its line and column. -/
structure ByteCursor where
  source : List Char
  pos : Nat
  position : Position

namespace ByteCursor

variable {ε : Type}

def start (source : String) : ByteCursor :=
  ⟨source.toList, 0, .start⟩

def atEnd (cursor : ByteCursor) : Bool :=
  byteLength cursor.source ≤ cursor.pos

/-- The text at the cursor. -/
def remainder (cursor : ByteCursor) : Except (Failure ε) (List Char) :=
  sliceFrom cursor.pos cursor.source

/-- The position behind one more character, if line and column can be counted on. -/
def count (p : Position) (c : Char) : Except (Failure ε) Position :=
  let next := p.step c
  if next.line < counterLimit ∧ next.column < counterLimit then .ok next
  else .error (.fault .overflow)

/-- Moves the cursor over the next `n` bytes, or to the end of the text if there are fewer. -/
def advance (cursor : ByteCursor) (n : Nat) : Except (Failure ε) ByteCursor :=
  if addressLimit ≤ cursor.pos + n then .error (.fault .overflow)
  else do
    let stop := min (cursor.pos + n) (byteLength cursor.source)
    let passed ← slice cursor.pos stop cursor.source
    let position ← passed.foldlM count cursor.position
    .ok { cursor with pos := stop, position }

end ByteCursor

/-- One round: the handler at the cursor finds a stretch of text, and the cursor moves over it. -/
def ByteCursor.round (cursor : ByteCursor) :
    Except (Failure LexicalError) (ByteCursor × Option Lexeme) := do
  let text ← cursor.remainder
  match handle text with
  | .error (.refused cause) => .error (.refused ⟨cause, cursor.position⟩)
  | .error (.fault f) => .error (.fault f)
  | .ok extent =>
    let next ← cursor.advance extent.bytes
    .ok (next, extent.lexeme)

/-- The tokens from the cursor on behind those before it. A round passes at least one character, so
one round more than there are characters is enough. -/
def tokenizeFrom : Nat → ByteCursor → Array Token →
    Except (Failure LexicalError) (Array Token)
  | 0, _, _ => .error (.fault .stuck)
  | rounds + 1, cursor, tokens =>
    if cursor.atEnd then .ok (tokens.push (.endMark (byteLength cursor.source) tokens.size))
    else do
      let (next, lexeme) ← cursor.round
      match lexeme with
      | none => tokenizeFrom rounds next tokens
      | some lexeme =>
        tokenizeFrom rounds next (tokens.push ⟨lexeme, ⟨cursor.pos, next.pos⟩, tokens.size⟩)

/-- The tokens of a source text, closed by one end mark. -/
def tokenize (source : String) : Except (Failure LexicalError) (List Token) := do
  let tokens ← tokenizeFrom (source.length + 1) (.start source) #[]
  .ok tokens.toList

end FrontEnd.Lexical
