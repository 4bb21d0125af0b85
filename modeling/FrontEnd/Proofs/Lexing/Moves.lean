import FrontEnd.Proofs.Lexing.Refusal
import FrontEnd.Proofs.Lexing.Tokenize
import Mathlib.Algebra.GroupWithZero.Nat

/-! Where a cursor stands. However many moves took it there, offset, line and column are those of
the text before it, so that two runs of moves to one offset end in one state. The cursor that keeps
the whole text and the one that keeps only the rest of it make the same moves. -/
namespace FrontEnd

namespace Text

variable {front back text : List Char} {stop : Nat}

/-- Between an offset and a later one between two characters lies a part of the text. -/
theorem Boundary.exists_of_le (h : Boundary (front ++ back) stop) (hle : byteLength front ≤ stop) :
    ∃ passed rest, back = passed ++ rest ∧ byteLength (front ++ passed) = stop := by
  obtain ⟨front', back', htext, hlength⟩ := h
  rcases List.append_eq_append_iff.mp htext with ⟨passed, hfront, hback⟩ | ⟨excess, hfront, hback⟩
  · exact ⟨passed, back', hback, by rw [← hfront, hlength]⟩
  · refine ⟨[], back, rfl, ?_⟩
    simp only [hfront, byteLength_append, byteLength_nil] at hle ⊢
    omega

theorem splitBytes_of_le {n : Nat} (h : byteLength text ≤ n) :
    splitBytes n text = some (text, []) := by
  induction text generalizing n with
  | nil => cases n <;> simp [splitBytes]
  | cons c cs ih =>
    have hc := c.utf8Size_pos
    rw [byteLength_cons] at h
    obtain ⟨m, rfl⟩ : ∃ m, n = m + 1 := ⟨n - 1, by omega⟩
    have hle : c.utf8Size ≤ m + 1 := by omega
    simp [splitBytes, hle, ih (n := m + 1 - c.utf8Size) (by omega)]

/-- A cut that is asked for behind the end is made at the end. -/
theorem splitBytes_of_min {n : Nat} (h : byteLength front = min n (byteLength (front ++ back))) :
    splitBytes n (front ++ back) = some (front, back) := by
  by_cases hn : n ≤ byteLength (front ++ back)
  · obtain rfl : n = byteLength front := by omega
    exact splitBytes_append front back
  · have hlength := length_le_byteLength back
    rw [byteLength_append] at h hn
    obtain rfl : back = [] := List.eq_nil_of_length_eq_zero (by omega)
    rw [splitBytes_of_le (by simp; omega), List.append_nil]

end Text

namespace Lexical

open Text

variable {ε : Type}

namespace ByteCursor

/-- The cursor between two parts of a text, with the position that the first part leads to. -/
def between (front back : List Char) : ByteCursor :=
  ⟨front ++ back, byteLength front, Position.start.after front⟩

/-- The cursor behind a sequence of moves. -/
def advanceAll (cursor : ByteCursor) (amounts : List Nat) : Except (Failure ε) ByteCursor :=
  amounts.foldlM advance cursor

theorem advanceAll_nil (cursor : ByteCursor) :
    (cursor.advanceAll [] : Except (Failure ε) _) = .ok cursor := rfl

theorem advanceAll_cons (cursor : ByteCursor) (n : Nat) (amounts : List Nat) :
    (cursor.advanceAll (n :: amounts) : Except (Failure ε) _) =
      cursor.advance n >>= fun next => next.advanceAll amounts :=
  List.foldlM_cons

end ByteCursor

end Lexical

namespace TextCursor

open Text

/-- The cursor between two parts of a text. -/
def between (front back : List Char) : TextCursor :=
  ⟨back, byteLength front, Position.start.after front⟩

/-- The cursor behind a sequence of moves. -/
def advanceAll (cursor : TextCursor) (amounts : List Nat) : Except Fault TextCursor :=
  amounts.foldlM advance cursor

theorem advanceAll_nil (cursor : TextCursor) : cursor.advanceAll [] = .ok cursor := rfl

theorem advanceAll_cons (cursor : TextCursor) (n : Nat) (amounts : List Nat) :
    cursor.advanceAll (n :: amounts) = cursor.advance n >>= fun next => next.advanceAll amounts :=
  List.foldlM_cons

theorem advance_between {front passed rest : List Char} {n : Nat}
    (hlimit : byteLength front + n < addressLimit)
    (hstop : byteLength (front ++ passed) =
      min (byteLength front + n) (byteLength (front ++ (passed ++ rest)))) :
    (between front (passed ++ rest)).advance n = .ok (between (front ++ passed) rest) := by
  have hpassed : byteLength passed = min n (byteLength (passed ++ rest)) := by
    simp only [byteLength_append] at hstop ⊢
    omega
  simp only [between, advance, hlimit, if_true, skip, splitBytes_of_min hpassed,
    Position.after_append, byteLength_append]

end TextCursor

namespace Lexical

open Text

variable {ε : Type}

namespace ByteCursor

variable {front back : List Char} {n : Nat} {cursor next : ByteCursor}

/-- What a move does: it passes the characters up to its end or to the end of the text, and it is
refused if the end is no address, if it lies inside a character, or if a line or a column on the way
cannot be counted. -/
theorem advance_between_eq_ok_iff :
    ((between front back).advance n : Except (Failure ε) _) = .ok next ↔
      byteLength front + n < addressLimit ∧
        ∃ passed rest, back = passed ++ rest ∧
          byteLength (front ++ passed) = min (byteLength front + n) (byteLength (front ++ back)) ∧
          Counts (Position.start.after front) passed ∧ next = between (front ++ passed) rest := by
  constructor
  · intro h
    by_cases hlimit : addressLimit ≤ byteLength front + n
    · simp [between, advance, hlimit] at h
    · simp only [between, advance, hlimit, if_false] at h
      obtain ⟨passed, hslice, h⟩ := bind_eq_ok_iff.mp h
      obtain ⟨position, hcount, h⟩ := bind_eq_ok_iff.mp h
      cases h
      obtain ⟨front', rest, htext, hstart, hstop⟩ := covers_of_slice hslice
      rw [List.append_assoc] at htext
      obtain ⟨rfl, rfl⟩ := append_inj_of_byteLength htext hstart.symm
      obtain ⟨hcounts, rfl⟩ := foldlM_count_eq_ok_iff.mp hcount
      refine ⟨Nat.lt_of_not_le hlimit, passed, rest, rfl, hstop, hcounts, ?_⟩
      simp only [between, hstop, List.append_assoc, Position.after_append]
  · intro h
    obtain ⟨hlimit, passed, rest, rfl, hstop, hcounts, rfl⟩ := h
    have hcount := foldlM_count_eq_ok_iff (ε := ε).mpr ⟨hcounts, rfl⟩
    rw [← List.append_assoc] at hstop
    have hadvance := advance_of_count passed hcount hlimit hstop
    simpa only [between, List.append_assoc, Position.after_append] using hadvance

/-- Where a run of moves leads, if none of them is refused, and that the cursor on the rest of the
text comes to the same place. -/
theorem advanceAll_between {amounts : List Nat}
    (h : ((between front back).advanceAll amounts : Except (Failure ε) _) = .ok cursor) :
    ∃ passed rest, back = passed ++ rest ∧
      byteLength (front ++ passed) =
        min (byteLength front + amounts.sum) (byteLength (front ++ back)) ∧
      cursor = between (front ++ passed) rest ∧
      (TextCursor.between front back).advanceAll amounts =
        .ok (.between (front ++ passed) rest) := by
  -- each move starts a new run, from the text that it has left in front
  induction amounts generalizing front back with
  | nil =>
    rw [advanceAll_nil] at h
    cases h
    exact ⟨[], back, rfl, by simp, by simp, by simp [TextCursor.advanceAll_nil]⟩
  | cons n amounts ih =>
    rw [advanceAll_cons] at h
    obtain ⟨next, hstep, h⟩ := bind_eq_ok_iff.mp h
    obtain ⟨hlimit, passed, rest, rfl, hstop, -, rfl⟩ := advance_between_eq_ok_iff.mp hstep
    obtain ⟨more, rest, rfl, hlength, hcursor, hrun⟩ := ih h
    have htext := TextCursor.advance_between hlimit hstop
    refine ⟨passed ++ more, rest, by simp, ?_, by rw [hcursor, List.append_assoc], ?_⟩
    · rw [← List.append_assoc, hlength, hstop]
      simp only [byteLength_append, List.sum_cons]
      omega
    · rw [TextCursor.advanceAll_cons, htext, ok_bind, hrun, List.append_assoc]

end ByteCursor

/-- The moves from an offset on end at addresses, and each end, or the end of the text if that comes
first, lies between two characters. -/
def Lands (text : List Char) : Nat → List Nat → Prop
  | _, [] => True
  | offset, n :: amounts =>
    offset + n < addressLimit ∧ Boundary text (min (offset + n) (byteLength text)) ∧
      Lands text (min (offset + n) (byteLength text)) amounts

instance Lands.instDecidable (text : List Char) :
    (offset : Nat) → (amounts : List Nat) → Decidable (Lands text offset amounts)
  | _, [] => inferInstanceAs (Decidable True)
  | offset, n :: amounts =>
    have := Lands.instDecidable text (min (offset + n) (byteLength text)) amounts
    inferInstanceAs (Decidable (offset + n < addressLimit ∧ _ ∧ _))

/-- Every place of a text up to a byte offset has a line and a column of 32 bits. -/
def CountsTo (text : List Char) (stop : Nat) : Prop :=
  ∀ part, part <+: text → byteLength part ≤ stop →
    1 + part.count '\n' < counterLimit ∧
      1 + (part.reverse.takeWhile (· != '\n')).length < counterLimit

theorem countsTo_of_length {text : List Char} (h : text.length < counterLimit - 1) (stop : Nat) :
    CountsTo text stop := by
  intro part hpart _
  have hlength := hpart.length_le
  have hlines := List.count_le_length (a := '\n') (l := part)
  have hcolumns := (List.takeWhile_prefix (· != '\n') (l := part.reverse)).length_le
  rw [List.length_reverse] at hcolumns
  constructor <;> omega

theorem CountsTo.counts {front passed rest : List Char} {stop : Nat}
    (h : CountsTo (front ++ (passed ++ rest)) stop) (hstop : byteLength (front ++ passed) ≤ stop) :
    Counts (Position.start.after front) passed := by
  intro part hpart _
  obtain ⟨later, rfl⟩ := hpart
  rw [← Position.after_append, Position.after_start]
  refine h (front ++ part) ⟨later ++ rest, by simp⟩ ?_
  simp only [byteLength_append] at hstop ⊢
  omega

theorem ByteCursor.exists_advanceAll {front back : List Char} {amounts : List Nat}
    (hlands : Lands (front ++ back) (byteLength front) amounts)
    (hcount : CountsTo (front ++ back) (byteLength front + amounts.sum)) :
    ∃ cursor, ((between front back).advanceAll amounts : Except (Failure ε) _) = .ok cursor := by
  induction amounts generalizing front back with
  | nil => exact ⟨_, advanceAll_nil _⟩
  | cons n amounts ih =>
    obtain ⟨hlimit, hboundary, hrest⟩ := hlands
    have hle : byteLength front ≤ min (byteLength front + n) (byteLength (front ++ back)) := by
      rw [byteLength_append]
      omega
    -- the end of the move is a place of the text, and not in front of the cursor
    obtain ⟨passed, rest, rfl, hstop⟩ := hboundary.exists_of_le hle
    rw [List.sum_cons] at hcount
    have hstep : ((between front (passed ++ rest)).advance n : Except (Failure ε) _) =
        .ok (between (front ++ passed) rest) :=
      advance_between_eq_ok_iff.mpr
        ⟨hlimit, passed, rest, rfl, hstop, hcount.counts (by omega), rfl⟩
    rw [← hstop, ← List.append_assoc] at hrest
    rw [advanceAll_cons, hstep, ok_bind]
    refine ih hrest fun part hpart hlength => hcount part ?_ ?_
    · rwa [List.append_assoc] at hpart
    · omega

/-- The state of a cursor between two parts of a source text. -/
structure ByteCursor.Parts (cursor : ByteCursor) (source : String) (front back : List Char) :
    Prop where
  source_eq : source.toList = front ++ back
  text_eq : cursor.source = source.toList
  pos_eq : cursor.pos = byteLength front
  line_eq : cursor.position.line = 1 + front.count '\n'
  /-- The column counts the characters behind the last line feed. -/
  column_eq : cursor.position.column = 1 + (front.reverse.takeWhile (· != '\n')).length

/-- Whatever moves are made from the start of a source text, as long as their ends lie between two
characters and can be counted, they lead to the place that the sum of their amounts names, or to the
end of the text. Line and column count what stands before that place, the text at the cursor is what
stands behind it, and any other moves that lead to the offset lead to the same state. The cursor on
the rest of the text comes to the same place. -/
theorem ByteCursor.advanceAll_start {source : String} {amounts : List Nat}
    (hlands : Lands source.toList 0 amounts) (hcount : CountsTo source.toList amounts.sum) :
    ∃ cursor front back,
      ((start source).advanceAll amounts : Except (Failure ε) _) = .ok cursor ∧
      cursor.Parts source front back ∧
      cursor.pos = min amounts.sum (byteLength source.toList) ∧
      (cursor.remainder : Except (Failure ε) _) = .ok back ∧
      (TextCursor.ofSource source).advanceAll amounts = .ok ⟨back, cursor.pos, cursor.position⟩ ∧
      ∀ (others : List Nat) (other : ByteCursor),
        ((start source).advanceAll others : Except (Failure ε) _) = .ok other →
          other.pos = cursor.pos → other = cursor := by
  have hstart : start source = between [] source.toList := rfl
  obtain ⟨cursor, hrun⟩ : ∃ cursor,
      ((between [] source.toList).advanceAll amounts : Except (Failure ε) _) = .ok cursor :=
    exists_advanceAll hlands (by simpa using hcount)
  obtain ⟨front, back, hsource, hpos, rfl, htext⟩ := advanceAll_between hrun
  refine ⟨between front back, front, back, hrun, ⟨hsource, hsource.symm, rfl, ?_, ?_⟩, ?_,
    remainder_eq front back _, htext, ?_⟩
  · simp [between, Position.after_start]
  · simp [between, Position.after_start]
  · simpa [between] using hpos
  · intro others other hother heq
    rw [hstart] at hother
    obtain ⟨front', back', hsource', -, rfl, -⟩ := advanceAll_between hother
    obtain ⟨hfront, hback⟩ := append_inj_of_byteLength (hsource'.symm.trans hsource) heq
    simp [hfront, hback]

/-- The text has characters of several bytes and a line feed. The moves end in front of the line
feed, behind it, at the same place once more, behind the next character and at the end of the text,
where two moves in other steps end too. -/
theorem ByteCursor.advanceAll_start_wide :
    Lands "é\n→x".toList 0 [2, 1, 0, 3, 9] ∧ CountsTo "é\n→x".toList 15 ∧
      ∃ cursor front back,
        ((start "é\n→x").advanceAll [2, 1, 0, 3, 9] : Except (Failure LexicalError) _) =
          .ok cursor ∧
        cursor.Parts "é\n→x" front back ∧ cursor.pos = 7 ∧ cursor.position = ⟨2, 3⟩ ∧
        ((start "é\n→x").advanceAll [6, 1] : Except (Failure LexicalError) _) = .ok cursor := by
  have hlands : Lands "é\n→x".toList 0 [2, 1, 0, 3, 9] := by decide +kernel
  have hcount : ∀ stop, CountsTo "é\n→x".toList stop := countsTo_of_length (by decide)
  have hposition : ((start "é\n→x").advanceAll [2, 1, 0, 3, 9] :
      Except (Failure LexicalError) _).toOption.map (·.position) = some ⟨2, 3⟩ := by
    decide +kernel
  obtain ⟨cursor, front, back, hrun, hparts, hpos, -, -, hsame⟩ :=
    advanceAll_start (ε := LexicalError) hlands (hcount _)
  have hlands' : Lands "é\n→x".toList 0 [6, 1] := by decide +kernel
  obtain ⟨other, -, -, hrun', -, hpos', -⟩ :=
    advanceAll_start (ε := LexicalError) hlands' (hcount _)
  have hother : other = cursor := hsame [6, 1] other hrun' (by rw [hpos, hpos']; decide)
  rw [hrun] at hposition
  exact ⟨hlands, hcount 15, cursor, front, back, hrun, hparts, hpos,
    Option.some.inj hposition, hother ▸ hrun'⟩

end Lexical

end FrontEnd
