import FrontEnd.Proofs.Lexing.Scan
import FrontEnd.Proofs.Lexing.Lookahead
import Mathlib.Data.List.Induction

/-! Lexical errors. An error is placed where the text before it is a text of its own, with tokens
and nothing left over, and the text behind that place shows what the error says of it. -/
namespace FrontEnd

namespace Position

/-- The line counts the line feeds before a place, the column the characters behind the last one. -/
theorem after_start (text : List Char) :
    start.after text =
      ⟨1 + text.count '\n', 1 + (text.reverse.takeWhile (· != '\n')).length⟩ := by
  induction text using List.reverseRecOn with
  | nil => rfl
  | append_singleton text c ih =>
    rw [after_append, ih]
    by_cases hc : c = '\n'
    · simp [step, hc, Nat.add_assoc]
    · simp [step, hc, Nat.add_comm]

end Position

namespace LexicalCause

/-- The text starts with a digit, or with a point and a digit. -/
def StartsNumber (text : List Char) : Prop :=
  ∃ d, d.isDigit = true ∧ ([d] <+: text ∨ ['.', d] <+: text)

/-- The text shows what the cause says: it starts with the mark of the literal or the comment that
is wrong, and with the fragment. An escape is shown behind the opening quote. -/
def ShownBy (text : List Char) : LexicalCause → Prop
  | .unterminatedString => ['"'] <+: text
  | .unterminatedRawString => ['r', '"'] <+: text
  | .unterminatedCharacter => ['\''] <+: text
  | .unterminatedComment => ['/', '*'] <+: text ∧ ¬ ['*', '/'] <:+: text.drop 2
  | .emptyCharacter => ['\''] <+: text
  | .invalidHexEscape fragment => ['\''] <+: text ∧ fragment.toList <+: text.drop 1
  | .invalidUnicodeEscape fragment => ['\''] <+: text ∧ fragment.toList <+: text.drop 1
  | .invalidBracedEscape fragment => ['\''] <+: text ∧ fragment.toList <+: text.drop 1
  | .invalidRadixLiteral radix fragment =>
    radix ∈ Radix.marked ∧ radix.mark.toList <+: text ∧ fragment.toList <+: text
  | .invalidNumber fragment => StartsNumber text ∧ fragment.toList <+: text
  | .invalidFloat fragment => StartsNumber text ∧ fragment.toList <+: text
  | .invalidExponent fragment => StartsNumber text ∧ fragment.toList <+: text
  | .unexpectedCharacter character code => [character] <+: text ∧ code = character.toNat

end LexicalCause

namespace Lexical

open Text

variable {c : Char} {rest text : List Char} {cause : LexicalCause}

theorem commentBody_eq_none (h : commentBody text = none) : ¬ ['*', '/'] <:+: text := by
  fun_induction commentBody text with
  | case1 => simp
  | case2 => cases h
  | case3 c rest hclose ih =>
    rw [List.infix_cons_iff]
    rintro (hfirst | hlater)
    · obtain ⟨tail, htail⟩ := hfirst
      obtain ⟨rfl, rfl⟩ := List.cons.inj htail
      exact hclose tail rfl rfl
    · exact ih (Option.map_eq_none_iff.mp h) hlater

theorem escape_error (h : escape text = .error cause) : cause.ShownBy ('\'' :: '\\' :: text) := by
  have hquote : ['\''] <+: '\'' :: '\\' :: text := ⟨_, rfl⟩
  unfold escape at h
  split at h
  · cases h
    exact hquote
  · dsimp only at h
    split at h
    · cases h
    · cases h
      refine ⟨hquote, ?_⟩
      rw [String.toList_ofList]
      exact List.prefix_append_right_inj ['\\', 'x'] |>.mpr (List.takeWhile_prefix _)
  · rename_i rest
    have hdigits : rest.takeWhile isHexDigit <+: rest := List.takeWhile_prefix _
    dsimp only at h
    split at h
    · rename_i hbrace
      split at h
      · cases h
      · cases h
        refine ⟨hquote, ?_⟩
        rw [String.toList_ofList]
        obtain ⟨tail, htail⟩ := List.head?_eq_some_iff.mp hbrace
        refine ⟨tail, ?_⟩
        rw [List.append_assoc, List.singleton_append, ← htail]
        exact congrArg ('\\' :: 'u' :: '\x7b' :: ·) (List.prefix_iff_eq_append.mp hdigits)
    · cases h
      refine ⟨hquote, ?_⟩
      rw [String.toList_ofList]
      exact List.prefix_append_right_inj ['\\', 'u', '\x7b'] |>.mpr hdigits
  · dsimp only at h
    split at h
    · cases h
    · cases h
      refine ⟨hquote, ?_⟩
      rw [String.toList_ofList]
      exact List.prefix_append_right_inj ['\\', 'u'] |>.mpr (List.takeWhile_prefix _)
  · split at h
    · cases h
      exact hquote
    · cases h

theorem character_error (h : character rest = .error cause) : cause.ShownBy ('\'' :: rest) := by
  have hquote : ['\''] <+: '\'' :: rest := ⟨_, rfl⟩
  unfold character at h
  cases hbody : characterBody rest with
  | ok body =>
    simp only [hbody, bind, Except.bind] at h
    split at h
    · cases h
    · cases h
      exact hquote
  | error other =>
    rw [hbody] at h
    cases h
    unfold characterBody at hbody
    split at hbody
    · cases hbody
      exact hquote
    · cases hbody
      exact hquote
    · exact escape_error hbody
    · split at hbody
      · cases hbody
        exact hquote
      · cases hbody

/-- The character that cannot follow the digits follows them in the text. -/
theorem radixRun_offender {radix : Radix} {underscored : Bool} {run : List Char} {d : Char}
    (h : radixRun radix underscored text = (run, some d)) : run ++ [d] <+: text := by
  fun_induction radixRun radix underscored text generalizing run with
  | case1 => cases (Prod.mk.inj h).2
  | case2 underscored c rest hdigit run' offender hrun ih =>
    obtain ⟨rfl, rfl⟩ := Prod.mk.inj h
    exact List.prefix_cons_inj c |>.mpr (ih hrun)
  | case3 underscored c rest hdigit hunder run' offender hrun ih =>
    obtain ⟨rfl, rfl⟩ := Prod.mk.inj h
    exact List.prefix_cons_inj c |>.mpr (ih hrun)
  | case4 => cases (Prod.mk.inj h).2
  | case5 underscored c rest hdigit hunder hstop =>
    obtain ⟨rfl, hd⟩ := Prod.mk.inj h
    cases hd
    exact ⟨rest, rfl⟩

theorem radixLiteral_error {radix : Radix} (hradix : radix ∈ Radix.marked)
    (h : radixLiteral radix rest = .error cause) :
    cause.ShownBy (radix.mark.toList ++ rest) := by
  have hmark : radix.mark.toList <+: radix.mark.toList ++ rest := ⟨rest, rfl⟩
  unfold radixLiteral at h
  cases hrun : radixRun radix false rest with
  | mk run offender =>
    rw [hrun] at h
    cases offender with
    | some d =>
      cases h
      refine ⟨hradix, hmark, ?_⟩
      rw [String.toList_ofList, List.append_assoc]
      exact List.prefix_append_right_inj _ |>.mpr (radixRun_offender hrun)
    | none =>
      simp only at h
      split at h
      · cases h
      · cases h
        refine ⟨hradix, hmark, ?_⟩
        rw [String.toList_ofList]
        exact List.prefix_append_right_inj _ |>.mpr (radixRun_starts hrun)

theorem decimalLiteral_error (hstarts : LexicalCause.StartsNumber text)
    (h : decimalLiteral text = .error cause) : cause.ShownBy text := by
  unfold decimalLiteral at h
  cases hrun : decimalRun false false false text with
  | mk run ending =>
    have hfragment : (String.ofList run).toList <+: text := by
      rw [String.toList_ofList]
      exact decimalRun_starts hrun
    rw [hrun] at h
    cases ending with
    | complete isFloat =>
      simp only at h
      split at h
      · cases h
        exact ⟨hstarts, hfragment⟩
      · cases h
    | badUnderscore =>
      cases h
      exact ⟨hstarts, hfragment⟩
    | badFloat =>
      cases h
      exact ⟨hstarts, hfragment⟩
    | badExponent =>
      cases h
      exact ⟨hstarts, hfragment⟩

theorem startsNumber_of_opens (h : opensNumber c rest = true) :
    LexicalCause.StartsNumber (c :: rest) := by
  simp only [opensNumber, Bool.or_eq_true, Bool.and_eq_true, beq_iff_eq] at h
  rcases h with hdigit | ⟨rfl, hdigit⟩
  · exact ⟨c, hdigit, .inl ⟨rest, rfl⟩⟩
  · cases rest with
    | nil => cases hdigit
    | cons d rest => exact ⟨d, hdigit, .inr ⟨rest, rfl⟩⟩

theorem number_error (hopens : opensNumber c rest = true)
    (h : number (c :: rest) = .error cause) : cause.ShownBy (c :: rest) := by
  unfold number at h
  split at h
  · rename_i radix hradix
    have hmark := List.find?_some hradix
    obtain ⟨tail, htail⟩ := List.isPrefixOf_iff_prefix.mp hmark
    rw [← htail, ← String.length_toList, List.drop_left] at h
    rw [← htail]
    exact radixLiteral_error (List.mem_of_find?_eq_some hradix) h
  · exact decimalLiteral_error (startsNumber_of_opens hopens) h

/-- What a rule refuses shows why. -/
theorem Pattern.rule_error {pattern : Pattern} (hopens : pattern.Opens c rest)
    (h : pattern.rule c rest = .error cause) : cause.ShownBy (c :: rest) := by
  cases pattern with
  | blanks => cases h
  | lineComment => cases h
  | blockComment =>
    obtain ⟨rfl, hnext⟩ := hopens
    obtain ⟨rest, rfl⟩ := List.head?_eq_some_iff.mp hnext
    simp only [Pattern.rule, Lexical.blockComment, List.tail_cons] at h
    split at h
    · cases h
    · rename_i hbody
      cases h
      exact ⟨⟨rest, rfl⟩, commentBody_eq_none hbody⟩
  | string =>
    obtain rfl := hopens
    simp only [Pattern.rule, Lexical.string] at h
    split at h
    · cases h
    · cases h
      exact ⟨rest, rfl⟩
  | rawString =>
    obtain ⟨rfl, hnext⟩ := hopens
    obtain ⟨rest, rfl⟩ := List.head?_eq_some_iff.mp hnext
    simp only [Pattern.rule, Lexical.rawString] at h
    split at h
    · cases h
    · cases h
      exact ⟨rest, rfl⟩
  | character =>
    obtain rfl := hopens
    exact character_error h
  | number => exact number_error hopens h
  | word => cases h
  | operator =>
    simp only [Pattern.rule, fixedToken] at h
    split at h
    · cases h
    · cases h
      exact ⟨⟨rest, rfl⟩, rfl⟩

theorem read_error (h : read c rest = .error cause) : cause.ShownBy (c :: rest) := by
  rcases read_cases c rest with ⟨pattern, hopens, hrule⟩ | hnone
  · exact Pattern.rule_error hopens (hrule.symm.trans h)
  · cases hnone.symm.trans h
    exact ⟨⟨rest, rfl⟩, rfl⟩

/-- The text has tokens and nothing is left over, wherever it stands. -/
def Scans (text : List Char) : Prop :=
  ∀ (rounds index offset : Nat) (position : Position), text.length < rounds →
    ∃ tokens, scan rounds index ⟨text, offset, position⟩ = .ok tokens

theorem scans_nil : Scans [] := by
  intro rounds index offset position hrounds
  obtain ⟨rounds, rfl⟩ := Nat.exists_eq_succ_of_ne_zero (Nat.ne_zero_of_lt hrounds)
  exact ⟨_, rfl⟩

/-- One more reading in front. -/
theorem Scans.cons {cs front : List Char} {reading : Reading} (h : Scans front)
    (hread : read c (cs ++ front) = .ok reading) (htext : reading.text = c :: cs) :
    Scans (c :: (cs ++ front)) := by
  intro rounds index offset position hrounds
  obtain ⟨rounds, rfl⟩ := Nat.exists_eq_succ_of_ne_zero (Nat.ne_zero_of_lt hrounds)
  -- the reading has a character at least, so a round less is enough for the rest
  have hlength : front.length < rounds := by
    simp only [List.length_cons, List.length_append] at hrounds
    omega
  obtain ⟨text, lexeme⟩ := reading
  obtain rfl : text = c :: cs := htext
  cases lexeme with
  | none =>
    rw [scan_trivia hread rfl]
    exact h rounds index _ _ hlength
  | some l =>
    obtain ⟨tokens, hscan⟩ := h rounds (index + 1) (offset + byteLength (c :: cs))
      (position.after (c :: cs)) hlength
    rw [scan_round hread rfl, hscan]
    exact ⟨_, rfl⟩

/-- Behind a reading that went well the scan of the rest is what is refused. -/
theorem scan_rest_refused {rounds index offset : Nat} {position : Position}
    {cs more : List Char} {reading : Reading} {e : LexicalError}
    (hread : read c (cs ++ more) = .ok reading) (htext : reading.text = c :: cs)
    (h : scan (rounds + 1) index ⟨c :: (cs ++ more), offset, position⟩ = .error (.refused e)) :
    ∃ index', scan rounds index'
      ⟨more, offset + byteLength (c :: cs), position.after (c :: cs)⟩ = .error (.refused e) := by
  obtain ⟨text, lexeme⟩ := reading
  obtain rfl : text = c :: cs := htext
  cases lexeme with
  | none =>
    rw [scan_trivia hread rfl] at h
    exact ⟨index, h⟩
  | some l =>
    rw [scan_round hread rfl] at h
    cases hscan : scan rounds (index + 1)
        ⟨more, offset + byteLength (c :: cs), position.after (c :: cs)⟩ with
    | ok tokens =>
      rw [hscan] at h
      cases h
    | error failure =>
      rw [hscan] at h
      exact ⟨index + 1, hscan.trans h⟩

/-- A refused text has tokens up to the place of the error, and the rest shows the error. -/
theorem scan_refused {rounds index offset : Nat} {position : Position} {e : LexicalError}
    (h : scan rounds index ⟨text, offset, position⟩ = .error (.refused e)) :
    ∃ front back, text = front ++ back ∧ Scans front ∧ e.position = position.after front ∧
      e.cause.ShownBy back := by
  induction rounds generalizing index offset position text with
  | zero => cases h
  | succ rounds ih =>
    cases text with
    | nil => cases h
    | cons c rest =>
      cases hread : read c rest with
      | error cause =>
        simp only [scan, hread] at h
        cases h
        exact ⟨[], c :: rest, rfl, scans_nil, rfl, read_error hread⟩
      | ok reading =>
        obtain ⟨cs, more, htext, rfl⟩ := (rule_of_read hread).starts
        obtain ⟨index', hscan⟩ := scan_rest_refused hread htext h
        obtain ⟨front, back, rfl, hfront, hposition, hshown⟩ := ih hscan
        refine ⟨c :: (cs ++ front), back, by simp, ?_, ?_, hshown⟩
        · -- the reading looked at the whole rest, of which only the front is kept
          exact hfront.cons (read_truncate hread htext ⟨back, rfl⟩) htext
        · rw [hposition, ← List.cons_append, Position.after_append]

end Lexical

/-- The error is placed where a source text falls into a front that has tokens of its own and a rest
that shows the error. -/
structure LexicalError.Parts (e : LexicalError) (source : String) (front back : List Char) :
    Prop where
  source_eq : source.toList = front ++ back
  front_scans : ∃ tokens, Token.ofSource (String.ofList front) = .ok tokens
  line_eq : e.position.line = 1 + front.count '\n'
  /-- The column counts the characters behind the last line feed. -/
  column_eq : e.position.column = 1 + (front.reverse.takeWhile (· != '\n')).length
  shown : e.cause.ShownBy back

namespace Token

open Lexical

/-- A lexical error says where the source text is wrong, and in what. The text before that place has
tokens, although what stood behind each of them may be cut off there; line and column count its
lines and characters; the text behind starts with what the error names, and with the fragment that
it shows. -/
theorem ofSource_refused {source : String} {e : LexicalError}
    (h : ofSource source = .error (.refused e)) : ∃ front back, e.Parts source front back := by
  have hscan : scan _ 0 ⟨source.toList, 0, .start⟩ = .error (.refused e) := h
  obtain ⟨front, back, hsource, hfront, hposition, hshown⟩ := scan_refused hscan
  rw [Position.after_start] at hposition
  have hfront' : Scans (String.ofList front).toList := by rwa [String.toList_ofList]
  exact ⟨front, back, hsource, hfront' _ 0 0 .start (Nat.lt_succ_self _), by rw [hposition],
    by rw [hposition], hshown⟩

/-- The escape has too few digits. In front of it stand a comment over two lines, characters of
several bytes and a carriage return, which starts no line. -/
theorem ofSource_refused_escape :
    ofSource "/* é\n→ */ x\r'\\u12'" =
        .error (.refused ⟨.invalidUnicodeEscape "\\u12", ⟨2, 8⟩⟩) ∧
      ∃ front back, (⟨.invalidUnicodeEscape "\\u12", ⟨2, 8⟩⟩ : LexicalError).Parts
        "/* é\n→ */ x\r'\\u12'" front back := by
  have h : ofSource "/* é\n→ */ x\r'\\u12'" =
      .error (.refused ⟨.invalidUnicodeEscape "\\u12", ⟨2, 8⟩⟩) := by
    decide +kernel
  exact ⟨h, ofSource_refused h⟩

end Token

end FrontEnd
