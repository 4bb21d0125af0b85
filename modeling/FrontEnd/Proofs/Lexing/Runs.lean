import FrontEnd.Proofs.Lexing.Lookahead
import FrontEnd.Proofs.Lexing.Scan

/-! Scans as runs of readings. Every text falls into readings, one behind the other, up to its end
or up to a place where nothing can be read. These readings alone tell what a scan of the text
answers: its tokens, or its error and where that is. -/
namespace FrontEnd

namespace Token

/-- The token, so many bytes and so many places further on. -/
def shift (bytes places : Nat) (token : Token) : Token :=
  { token with
    span := ⟨token.span.start + bytes, token.span.stop + bytes⟩
    index := token.index + places }

end Token

namespace Reading

open Text

/-- The text that was read. -/
def chars (readings : List Reading) : List Char :=
  readings.flatMap (·.text)

def lexemes (readings : List Reading) : List Lexeme :=
  readings.flatMap (·.lexeme.toList)

/-- The tokens of readings that start at an offset, the first token at `index`. -/
def tokens : Nat → Nat → List Reading → List Token
  | _, _, [] => []
  | offset, index, reading :: readings =>
    let stop := offset + byteLength reading.text
    reading.lexeme.toList.map (fun l => ⟨l, ⟨offset, stop⟩, index⟩) ++
      tokens stop (index + reading.lexeme.toList.length) readings

variable {reading : Reading} {readings : List Reading}

@[simp] theorem chars_nil : chars [] = [] := rfl

@[simp] theorem chars_cons : chars (reading :: readings) = reading.text ++ chars readings := rfl

@[simp] theorem chars_append (front back : List Reading) :
    chars (front ++ back) = chars front ++ chars back :=
  List.flatMap_append

@[simp] theorem lexemes_nil : lexemes [] = [] := rfl

@[simp] theorem lexemes_cons :
    lexemes (reading :: readings) = reading.lexeme.toList ++ lexemes readings := rfl

@[simp] theorem lexemes_append (front back : List Reading) :
    lexemes (front ++ back) = lexemes front ++ lexemes back :=
  List.flatMap_append

theorem length_tokens (offset index : Nat) (readings : List Reading) :
    (tokens offset index readings).length = (lexemes readings).length := by
  induction readings generalizing offset index with
  | nil => rfl
  | cons reading readings ih => simp [tokens, ih]

theorem tokens_append (offset index : Nat) (front back : List Reading) :
    tokens offset index (front ++ back) = tokens offset index front ++
      tokens (offset + byteLength (chars front)) (index + (lexemes front).length) back := by
  induction front generalizing offset index with
  | nil => simp [tokens]
  | cons reading front ih => simp [tokens, ih, Nat.add_assoc]

/-- The same readings further on have the same tokens further on. -/
theorem tokens_add (offset index bytes places : Nat) (readings : List Reading) :
    tokens (offset + bytes) (index + places) readings =
      (tokens offset index readings).map (Token.shift bytes places) := by
  induction readings generalizing offset index with
  | nil => rfl
  | cons reading readings ih =>
    simp only [tokens, List.map_append, List.map_map, ← ih, Nat.add_right_comm _ bytes,
      Nat.add_right_comm _ places]
    rfl

end Reading

namespace Lexical

open Text Reading

/-- The rules read the text as these readings, up to what is left of it. -/
inductive Run : List Char → List Reading → List Char → Prop where
  | nil (text : List Char) : Run text [] text
  | cons {c : Char} {cs more back : List Char} {reading : Reading} {readings : List Reading} :
      read c (cs ++ more) = .ok reading → reading.text = c :: cs → Run more readings back →
      Run (c :: (cs ++ more)) (reading :: readings) back

/-- Nothing can be read at the start of the text, for the given cause. -/
def Refuses (text : List Char) (cause : LexicalCause) : Prop :=
  ∃ c rest, text = c :: rest ∧ read c rest = .error cause

variable {text back : List Char} {readings front : List Reading} {cause : LexicalCause}

theorem Run.text_eq (h : Run text readings back) : text = chars readings ++ back := by
  induction h with
  | nil => rfl
  | cons _ htext _ ih => simp [htext, ih]

/-- Every reading takes a character. -/
theorem Run.length_le (h : Run text readings back) : readings.length ≤ text.length := by
  induction h with
  | nil => simp
  | cons _ _ _ ih =>
    simp only [List.length_cons, List.length_append]
    omega

theorem Run.split (h : Run text (front ++ readings) back) :
    ∃ mid, Run text front mid ∧ Run mid readings back := by
  induction front generalizing text with
  | nil => exact ⟨text, .nil text, h⟩
  | cons reading front ih =>
    cases h with
    | cons hread htext hrest =>
      obtain ⟨mid, hfront, hback⟩ := ih hrest
      exact ⟨mid, .cons hread htext hfront, hback⟩

/-- The readings of a run stay when the text behind them is cut off. -/
theorem Run.truncate (h : Run text readings back) : Run (chars readings) readings [] := by
  induction h with
  | nil => exact .nil []
  | cons hread htext hrest ih =>
    rw [chars_cons, htext, List.cons_append]
    exact .cons (read_truncate hread htext ⟨_, hrest.text_eq.symm⟩) htext ih

/-- A text can be read to its end, or up to where it is refused. -/
theorem exists_run (text : List Char) :
    ∃ readings back, Run text readings back ∧ (back = [] ∨ ∃ cause, Refuses back cause) := by
  match text with
  | [] => exact ⟨[], [], .nil _, .inl rfl⟩
  | c :: rest =>
    cases hread : read c rest with
    | error cause => exact ⟨[], c :: rest, .nil _, .inr ⟨cause, c, rest, rfl, hread⟩⟩
    | ok reading =>
      obtain ⟨cs, more, htext, rfl⟩ := (rule_of_read hread).starts
      obtain ⟨readings, back, hrun, hback⟩ := exists_run more
      exact ⟨reading :: readings, back, .cons hread htext hrun, hback⟩
termination_by text.length
decreasing_by
  subst_vars
  simp only [List.length_cons, List.length_append]
  omega

/-- A scan goes through the readings of a run, a round for each, and then on from there. -/
theorem Run.scan_eq (h : Run text readings back) (rounds index offset : Nat)
    (position : Position) :
    scan (readings.length + rounds) index ⟨text, offset, position⟩ =
      (scan rounds (index + (lexemes readings).length)
        ⟨back, offset + byteLength (chars readings), position.after (chars readings)⟩).map
          (tokens offset index readings ++ ·) := by
  induction h generalizing index offset position with
  | nil text =>
    rw [List.length_nil, Nat.zero_add]
    show _ = Except.map id (scan rounds index ⟨text, offset, position⟩)
    rw [Except.map_id]
    rfl
  | @cons c cs more back reading readings hread htext hrest ih =>
    obtain ⟨text, lexeme⟩ := reading
    obtain rfl : text = c :: cs := htext
    rw [List.length_cons, Nat.add_right_comm, chars_cons, byteLength_append, ← Nat.add_assoc,
      Position.after_append]
    cases lexeme with
    | none =>
      rw [scan_trivia hread rfl, ih]
      rfl
    | some l =>
      -- only a lexeme takes an index; text that stands for none moves the offset alone
      have hindex : index + (lexemes (⟨c :: cs, some l⟩ :: readings)).length =
          index + 1 + (lexemes readings).length := by
        rw [lexemes_cons, List.length_append, ← Nat.add_assoc]
        rfl
      rw [scan_round hread rfl, ih, hindex]
      cases scan rounds (index + 1 + (lexemes readings).length)
          ⟨back, offset + byteLength (c :: cs) + byteLength (chars readings),
            (position.after (c :: cs)).after (chars readings)⟩ <;> rfl

end Lexical

namespace Token

open Lexical Text Reading

variable {source : String} {readings : List Reading} {back : List Char} {cause : LexicalCause}

/-- A round is left for what is behind a run. -/
theorem exists_ofSource_eq (h : Run source.toList readings back) :
    ∃ rounds, ofSource source = (scan (rounds + 1) (lexemes readings).length
      ⟨back, byteLength (chars readings), Position.start.after (chars readings)⟩).map
        (Reading.tokens 0 0 readings ++ ·) := by
  obtain ⟨rounds, hrounds⟩ := Nat.exists_eq_add_of_le h.length_le
  have hscan := h.scan_eq (rounds + 1) 0 0 .start
  rw [← Nat.add_assoc, ← hrounds, Nat.zero_add, Nat.zero_add] at hscan
  exact ⟨rounds, hscan⟩

/-- A text that can be read to its end has the tokens of its readings. -/
theorem ofSource_of_run (h : Run source.toList readings []) :
    ofSource source = .ok (Reading.tokens 0 0 readings ++
      [.endMark (byteLength source.toList) (lexemes readings).length]) := by
  obtain ⟨rounds, hsource⟩ := exists_ofSource_eq h
  rw [hsource, h.text_eq, List.append_nil]
  rfl

/-- A text that cannot be read to its end is refused where its readings end. -/
theorem ofSource_of_refuses (h : Run source.toList readings back) (hback : Refuses back cause) :
    ofSource source = .error (.refused ⟨cause, Position.start.after (chars readings)⟩) := by
  obtain ⟨rounds, hsource⟩ := exists_ofSource_eq h
  obtain ⟨c, rest, rfl, hread⟩ := hback
  rw [hsource, scan]
  simp only [hread]
  rfl

/-- Tokens come from a run to the end of the text. -/
theorem exists_run_of_ok {tokens : List Token} (h : ofSource source = .ok tokens) :
    ∃ readings, Run source.toList readings [] ∧ tokens = Reading.tokens 0 0 readings ++
      [.endMark (byteLength source.toList) (lexemes readings).length] := by
  obtain ⟨readings, back, hrun, rfl | ⟨cause, hback⟩⟩ := exists_run source.toList
  · rw [ofSource_of_run hrun] at h
    exact ⟨readings, hrun, (Except.ok.inj h).symm⟩
  · rw [ofSource_of_refuses hrun hback] at h
    cases h

/-- A failure comes from a run to where the text is refused. -/
theorem exists_run_of_error {failure : Failure LexicalError}
    (h : ofSource source = .error failure) :
    ∃ readings back cause, Run source.toList readings back ∧ Refuses back cause ∧
      failure = .refused ⟨cause, Position.start.after (chars readings)⟩ := by
  obtain ⟨readings, back, hrun, rfl | ⟨cause, hback⟩⟩ := exists_run source.toList
  · rw [ofSource_of_run hrun] at h
    cases h
  · rw [ofSource_of_refuses hrun hback] at h
    exact ⟨readings, back, cause, hrun, hback, (Except.error.inj h).symm⟩

end Token

end FrontEnd
