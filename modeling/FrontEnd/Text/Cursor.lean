import FrontEnd.Fault
import FrontEnd.Text.Position

/-! A cursor into a text. It moves forward by a number of bytes and keeps the byte offset and the
position in step; a move that would end inside a character is refused. -/
namespace FrontEnd

namespace Text

/-- The number of bytes of a text in UTF-8. -/
def byteLength : List Char → Nat
  | [] => 0
  | c :: cs => c.utf8Size + byteLength cs

/-- Cuts a text behind its first `n` bytes, or at its end if it is shorter. There is no such cut
inside a character. -/
def splitBytes : Nat → List Char → Option (List Char × List Char)
  | 0, cs => some ([], cs)
  | _ + 1, [] => some ([], [])
  | n + 1, c :: cs =>
    if c.utf8Size ≤ n + 1 then
      (splitBytes (n + 1 - c.utf8Size) cs).map fun (front, back) => (c :: front, back)
    else none

@[simp] theorem byteLength_nil : byteLength [] = 0 := rfl

@[simp] theorem byteLength_cons (c : Char) (cs : List Char) :
    byteLength (c :: cs) = c.utf8Size + byteLength cs := rfl

@[simp] theorem byteLength_append (xs ys : List Char) :
    byteLength (xs ++ ys) = byteLength xs + byteLength ys := by
  induction xs with
  | nil => simp
  | cons c cs ih => simp [ih, Nat.add_assoc]

/-- A text splits behind any of its prefixes. -/
theorem splitBytes_append (front back : List Char) :
    splitBytes (byteLength front) (front ++ back) = some (front, back) := by
  induction front with
  | nil => simp [splitBytes]
  | cons c cs ih =>
    obtain ⟨n, hn⟩ : ∃ n, c.utf8Size + byteLength cs = n + 1 :=
      ⟨c.utf8Size + byteLength cs - 1, by have := c.utf8Size_pos; omega⟩
    have hc : c.utf8Size ≤ n + 1 := by omega
    have hd : n + 1 - c.utf8Size = byteLength cs := by omega
    simp [byteLength, hn, splitBytes, hc, hd, ih]

end Text

/-- A place in a text: what is still to be read, and where that starts. -/
structure TextCursor where
  rest : List Char
  offset : Nat
  position : Position
deriving DecidableEq

namespace TextCursor

open Text

/-- The cursor before a whole text. -/
def ofSource (source : String) : TextCursor :=
  ⟨source.toList, 0, .start⟩

def current? (cursor : TextCursor) : Option Char :=
  cursor.rest.head?

def atEnd (cursor : TextCursor) : Bool :=
  cursor.rest.isEmpty

/-- The text that is still to be read. -/
def remainder (cursor : TextCursor) : String :=
  String.ofList cursor.rest

/-- Moves over the next `n` bytes, or to the end if there are fewer. -/
def skip (cursor : TextCursor) (n : Nat) : Except Fault TextCursor :=
  match splitBytes n cursor.rest with
  | some (front, back) =>
    .ok ⟨back, cursor.offset + byteLength front, cursor.position.after front⟩
  | none => .error .splitCharacter

/-- As `skip`, where the offset asked for has to be an address. -/
def advance (cursor : TextCursor) (n : Nat) : Except Fault TextCursor :=
  if cursor.offset + n < addressLimit then cursor.skip n else .error .overflow

theorem skip_append (front back : List Char) (offset : Nat) (position : Position) :
    skip ⟨front ++ back, offset, position⟩ (byteLength front) =
      .ok ⟨back, offset + byteLength front, position.after front⟩ := by
  simp [skip, splitBytes_append]

end TextCursor

end FrontEnd
