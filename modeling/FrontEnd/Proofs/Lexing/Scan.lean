import FrontEnd.Proofs.Lexing.Reading

/-! From texts to tokens and back. The words and literals among the tokens of a text can be written
again, and pieces that are laid out with enough room between them are scanned as the lexemes that
they are. -/
namespace FrontEnd

namespace Piece

/-- The characters of the pieces. -/
def chars (ps : List Piece) : List Char :=
  ps.flatMap fun p => p.text.toList

@[simp] theorem chars_nil : chars [] = [] := rfl

@[simp] theorem chars_cons (p : Piece) (ps : List Piece) :
    chars (p :: ps) = p.text.toList ++ chars ps := rfl

@[simp] theorem chars_space (ps : List Piece) : chars (space :: ps) = ' ' :: chars ps := rfl

@[simp] theorem chars_newline (ps : List Piece) : chars (newline :: ps) = '\n' :: chars ps := rfl

theorem toList_render (ps : List Piece) : (render ps).toList = chars ps := by
  rw [render, String.toList_join, List.flatMap_map]
  rfl

/-- The lexemes among the pieces. -/
def lexemes : List Piece → List Lexeme
  | [] => []
  | .lexeme l :: ps => l :: lexemes ps
  | .blank _ :: ps => lexemes ps

end Piece

namespace Lexical

open Text Piece

/-- Every lexeme is read as itself before the pieces behind it, and blanks stand before lexemes
only. -/
def Legible : List Piece → Prop
  | [] => True
  | .lexeme l :: ps => Reads l (chars ps) ∧ Legible ps
  | .blank text :: ps =>
    (∃ c, text.toList = [c] ∧ isBlank c = true) ∧ (∃ l qs, ps = .lexeme l :: qs) ∧ Legible ps

variable {c : Char} {rest : List Char} {l : Lexeme} {ps : List Piece}

theorem isBlank_of_read {text : List Char} (h : read c rest = .ok ⟨text, some l⟩) :
    isBlank c = false := by
  refine Bool.eq_false_iff.mpr fun hblank => ?_
  unfold read at h
  rw [if_pos hblank] at h
  cases h

/-- A run of blanks is read as a whole. -/
theorem read_blanks {cs more : List Char} (hrun : ∀ d ∈ c :: cs, isBlank d = true)
    (hmore : ∀ d ∈ more.head?, isBlank d = false) :
    read c (cs ++ more) = .ok (.trivia (c :: cs)) := by
  unfold read blanks
  rw [if_pos (hrun c List.mem_cons_self), ← List.cons_append, takeWhile_append_of_ends hrun hmore]

/-- What is read at a blank is all blanks up to something else. -/
theorem blanks_of_read {cs more : List Char} {reading : Reading}
    (h : read c (cs ++ more) = .ok reading) (htext : reading.text = c :: cs)
    (hc : isBlank c = true) : reading.lexeme = none ∧ (∀ d ∈ c :: cs, isBlank d = true) ∧
      ∀ d ∈ more.head?, isBlank d = false := by
  unfold read blanks at h
  rw [if_pos hc] at h
  cases h
  have hrun : (c :: cs ++ more).takeWhile isBlank = c :: cs := htext
  have hall : ∀ d ∈ c :: cs, isBlank d = true := by
    rw [← hrun]
    exact List.all_eq_true.mp List.all_takeWhile
  refine ⟨rfl, hall, fun d hd => ?_⟩
  rw [List.takeWhile_append_of_pos hall, List.append_right_eq_self] at hrun
  obtain ⟨more, rfl⟩ := List.head?_eq_some_iff.mp hd
  simpa [List.takeWhile_cons] using hrun

theorem read_blank (hc : isBlank c = true) (h : Legible (.lexeme l :: ps)) :
    read c (chars (.lexeme l :: ps)) = .ok (.trivia [c]) := by
  obtain ⟨⟨d, ds, htext, hread⟩, -⟩ := h
  have hrun : ∀ e ∈ [c], isBlank e = true := by simpa using hc
  have hmore : ∀ e ∈ (chars (.lexeme l :: ps)).head?, isBlank e = false := by
    rw [chars_cons, show (Piece.lexeme l).text.toList = d :: ds from htext]
    rintro _ ⟨⟩
    exact isBlank_of_read hread
  exact read_blanks hrun hmore

/-- One round of a scan, over what is read there. -/
theorem scan_round {rounds index offset : Nat} {position : Position} {text more : List Char}
    (h : read c rest = .ok ⟨text, some l⟩) (htext : c :: rest = text ++ more) :
    scan (rounds + 1) index ⟨c :: rest, offset, position⟩ =
      match scan rounds (index + 1) ⟨more, offset + byteLength text, position.after text⟩ with
      | .error failure => .error failure
      | .ok tokens => .ok (⟨l, ⟨offset, offset + byteLength text⟩, index⟩ :: tokens) := by
  cases hmore : scan rounds (index + 1)
      ⟨more, offset + byteLength text, position.after text⟩ with
  | error failure => simp only [scan, h, htext, TextCursor.skip_append, hmore]
  | ok tokens => simp only [scan, h, htext, TextCursor.skip_append, hmore]

theorem scan_trivia {rounds index offset : Nat} {position : Position} {text more : List Char}
    (h : read c rest = .ok (.trivia text)) (htext : c :: rest = text ++ more) :
    scan (rounds + 1) index ⟨c :: rest, offset, position⟩ =
      scan rounds index ⟨more, offset + byteLength text, position.after text⟩ := by
  rw [scan]
  simp only [h, Reading.trivia]
  rw [htext, TextCursor.skip_append]

/-- Pieces that are legible are scanned as their lexemes, with an end mark behind them. -/
theorem scan_of_legible (h : Legible ps) :
    ∀ {rounds : Nat} (index offset : Nat) (position : Position), (chars ps).length < rounds →
      ∃ tokens, scan rounds index ⟨chars ps, offset, position⟩ = .ok tokens ∧
        tokens.map (·.toLexeme) = lexemes ps ++ [.endMark] := by
  induction ps with
  | nil =>
    intro rounds index offset position hr
    obtain ⟨rounds, rfl⟩ := Nat.exists_eq_succ_of_ne_zero (Nat.ne_zero_of_lt hr)
    exact ⟨[.endMark offset index], rfl, rfl⟩
  | cons p ps ih =>
    intro rounds index offset position hr
    obtain ⟨rounds, rfl⟩ := Nat.exists_eq_succ_of_ne_zero (Nat.ne_zero_of_lt hr)
    cases p with
    | lexeme l =>
      obtain ⟨⟨c, cs, htext, hread⟩, hrest⟩ := h
      have hchars : chars (.lexeme l :: ps) = c :: (cs ++ chars ps) := by
        rw [chars_cons, show (Piece.lexeme l).text = l.text from rfl, htext, List.cons_append]
      have hlen : (chars ps).length < rounds := by
        rw [hchars, List.length_cons, List.length_append] at hr
        omega
      obtain ⟨tokens, hscan, hlexemes⟩ := ih hrest (index + 1) (offset + byteLength (c :: cs))
        (position.after (c :: cs)) hlen
      rw [hchars, scan_round hread rfl, hscan]
      exact ⟨_, rfl, by simp [lexemes, hlexemes]⟩
    -- a blank has a lexeme behind it, so it is not joined with another one
    | blank text =>
      obtain ⟨⟨c, htext, hc⟩, ⟨l, qs, rfl⟩, hrest⟩ := h
      have hchars : chars (.blank text :: .lexeme l :: qs) = c :: chars (.lexeme l :: qs) := by
        rw [chars_cons, show (Piece.blank text).text = text from rfl, htext]
        rfl
      have hlen : (chars (.lexeme l :: qs)).length < rounds := by
        rw [hchars, List.length_cons] at hr
        omega
      obtain ⟨tokens, hscan, hlexemes⟩ := ih hrest index (offset + byteLength [c])
        (position.after [c]) hlen
      refine ⟨tokens, ?_, hlexemes⟩
      rw [hchars]
      exact (scan_trivia (read_blank hc hrest) rfl).trans hscan

/-- The words and literals among scanned tokens can be written again. -/
theorem written_of_scan {rounds : Nat} :
    ∀ {index : Nat} {cursor : TextCursor} {tokens : List Token},
      scan rounds index cursor = .ok tokens → ∀ token ∈ tokens, token.kind ∈ openKinds →
      Written token.toLexeme ∧ (token.toLexeme = .word token.value ∨
        ∃ kind : LiteralKind, token.toLexeme = kind.lexeme token.value) := by
  induction rounds with
  | zero =>
    intro index cursor tokens h
    cases h
  | succ rounds ih =>
    intro index cursor tokens h
    rw [scan] at h
    split at h
    · cases h
      intro token hmem hkind
      rw [List.mem_singleton.mp hmem] at hkind
      simp [Token.endMark, Lexeme.endMark, openKinds] at hkind
    · split at h
      · cases h
      · rename_i reading hread
        split at h
        · cases h
        · split at h
          · exact ih h
          · rename_i l hl
            split at h
            · cases h
            · rename_i more hmore
              cases h
              intro token hmem hkind
              rcases List.mem_cons.mp hmem with rfl | hmem
              · obtain ⟨text, lexeme⟩ := reading
                obtain rfl : lexeme = some l := hl
                exact read_written hread hkind
              · exact ih hmore token hmem hkind

end Lexical

end FrontEnd
