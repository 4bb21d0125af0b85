import FrontEnd.Text.Cursor

/-! Texts by their bytes in UTF-8. A slice is asked for by a byte offset, and there is none behind
the text or inside a character. -/
namespace FrontEnd.Text

variable {ε : Type}

/-- Cuts a text behind its first `n` bytes. -/
def cut : Nat → List Char → Except (Failure ε) (List Char × List Char)
  | 0, cs => .ok ([], cs)
  | _ + 1, [] => .error (.fault .outOfRange)
  | n + 1, c :: cs =>
    if c.utf8Size ≤ n + 1 then do
      let (front, back) ← cut (n + 1 - c.utf8Size) cs
      .ok (c :: front, back)
    else .error (.fault .splitCharacter)

/-- The text up to byte `stop`. -/
def sliceTo (stop : Nat) (text : List Char) : Except (Failure ε) (List Char) := do
  let (front, _) ← cut stop text
  .ok front

/-- The text from byte `start` on. -/
def sliceFrom (start : Nat) (text : List Char) : Except (Failure ε) (List Char) := do
  let (_, back) ← cut start text
  .ok back

/-- The text from byte `start` up to byte `stop`. -/
def slice (start stop : Nat) (text : List Char) : Except (Failure ε) (List Char) := do
  let front ← sliceTo stop text
  sliceFrom start front

/-- The byte offset of the first place at which the text goes on with `mark`. -/
def find? (mark : List Char) : List Char → Option Nat
  | [] => if mark.isEmpty then some 0 else none
  | c :: cs =>
    if mark.isPrefixOf (c :: cs) then some 0 else (find? mark cs).map fun i => c.utf8Size + i

def bytes (text : List Char) : List UInt8 :=
  text.flatMap String.utf8EncodeChar

/-- The byte at a place, which has to be there. -/
def byteAt (bytes : List UInt8) (i : Nat) : Except (Failure ε) UInt8 :=
  match bytes[i]? with
  | some byte => .ok byte
  | none => .error (.fault .outOfRange)

def isDigitByte (byte : UInt8) : Bool :=
  '0'.toUInt8 ≤ byte && byte ≤ '9'.toUInt8

end FrontEnd.Text
