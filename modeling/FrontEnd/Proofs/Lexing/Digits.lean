import FrontEnd.Proofs.Lexing.Handler

/-! The handlers of numbers pass one byte for each digit, underscore, point, sign and exponent mark
they accept. All of these are in ASCII, so a handler that has passed them stands between two
characters, whatever comes next. -/
namespace FrontEnd.Lexical

open Text

variable {radix : Radix}

theorem ascii_of_isDigit {c : Char} (h : c.isDigit = true) : c.toNat < 128 := by
  rw [isDigit_iff] at h
  omega

theorem ascii_of_radix_isDigit {c : Char} (h : radix.isDigit c = true) : c.toNat < 128 := by
  cases radix with
  | decimal => exact ascii_of_isDigit h
  | hex => exact ascii_of_isHexDigit h
  | octal =>
    simp only [Radix.isDigit, Bool.and_eq_true, decide_eq_true_eq, Char.le_def,
      UInt32.le_iff_toNat_le] at h
    have hseven : '7'.val.toNat = 55 := rfl
    have hc : c.val.toNat = c.toNat := rfl
    omega
  | binary =>
    simp only [Radix.isDigit, Bool.or_eq_true, beq_iff_eq] at h
    rcases h with rfl | rfl <;> decide

theorem isDigit_radix_underscore (radix : Radix) : radix.isDigit '_' = false := by
  cases radix <;> rfl

theorem byteLength_concat {c : Char} (h : c.toNat < 128) (front : List Char) :
    byteLength (front ++ [c]) = byteLength front + 1 := by
  simp [utf8Size_of_ascii h]

/-- What the search for the end of a literal with a radix mark does with its next character. -/
theorem radixStop_cons (radix : Radix) (front rest : List Char) (c : Char) :
    radixStop radix (front ++ c :: rest) (byteLength front) (c :: rest) =
      if radix.isDigit c then radixStop radix (front ++ c :: rest) (byteLength front + 1) rest
      else if c = '_' ∧ (front.getLast? == some '_') = false then
        radixStop radix (front ++ c :: rest) (byteLength front + 1) rest
      else if isBlank c || isPunctuation c then .ok (byteLength front)
      else refuse (.invalidRadixLiteral radix (String.ofList (front ++ [c]))) := by
  rw [radixStop]
  by_cases hunderscore : c = '_'
  · cases hlast : front.getLast? == some '_' with
    | true => simp [hunderscore, bne, hlast]
    | false => simp [hunderscore, bne, hlast]
  · simp [hunderscore]

/-- The digits end behind what the rule reads, or at the character that it refuses. -/
theorem radixStop_eq (radix : Radix) (underscored : Bool) (rest : List Char) :
    ∀ front : List Char, (front.getLast? == some '_') = underscored →
      radixStop radix (front ++ rest) (byteLength front) rest =
        match radixRun radix underscored rest with
        | (run, none) => .ok (byteLength (front ++ run))
        | (run, some c) =>
          refuse (.invalidRadixLiteral radix (String.ofList (front ++ run ++ [c]))) := by
  -- by the rounds of the rule; what the search has passed moves over to the text in front
  fun_induction radixRun radix underscored rest with
  | case1 underscored =>
    intro front _
    simp [radixStop]
  | case2 underscored c rest hdigit run offender hrun ih =>
    intro front hfront
    have hc := byteLength_concat (ascii_of_radix_isDigit hdigit) front
    have hne : c ≠ '_' := by
      intro hunderscore
      rw [hunderscore, isDigit_radix_underscore] at hdigit
      cases hdigit
    have hnext := ih (front ++ [c]) (by simp [hne])
    rw [radixStop_cons, if_pos hdigit, ← hc, List.append_cons, hnext, hrun]
    cases offender <;> simp
  | case3 underscored c rest hdigit hunderscore run offender hrun ih =>
    intro front hfront
    obtain ⟨rfl, hjoins⟩ := hunderscore
    have hc := byteLength_concat (show '_'.toNat < 128 by decide) front
    have hnext := ih (front ++ ['_']) (by simp)
    rw [radixStop_cons, if_neg hdigit, if_pos ⟨rfl, hfront.trans hjoins⟩, ← hc, List.append_cons,
      hnext, hrun]
    cases offender <;> simp
  | case4 underscored c rest hdigit hunderscore hends =>
    intro front hfront
    rw [radixStop_cons, if_neg hdigit, hfront, if_neg hunderscore, if_pos hends]
    simp
  | case5 underscored c rest hdigit hunderscore hends =>
    intro front hfront
    rw [radixStop_cons, if_neg hdigit, hfront, if_neg hunderscore, if_neg hends]
    simp

theorem handleRadix_eq (radix : Radix) (rest : List Char) :
    handleRadix radix (radix.mark.toList ++ rest) = counted (radixLiteral radix rest) := by
  have hopen : (radix.mark.toList.getLast? == some '_') = false := by
    cases radix <;> rfl
  have hstop := radixStop_eq radix false rest _ hopen
  simp only [handleRadix, sliceFrom_append, ok_bind, hstop, radixLiteral]
  cases hrun : radixRun radix false rest with
  | mk run offender =>
    cases offender with
    | some c => simp
    | none =>
      obtain ⟨more, rfl⟩ := radixRun_starts hrun
      simp only [ok_bind, ← List.append_assoc, sliceTo_append, sliceFrom_append, take_append]
      by_cases hlast : run.getLast?.any radix.isDigit
      · rw [if_pos hlast, if_pos hlast, counted_ok]
      · rw [if_neg hlast, if_neg hlast, counted_error]

/-- The byte behind a character of one byte. -/
theorem getElem?_bytes_cons {c : Char} (h : c.toNat < 128) (front rest : List Char) (i : Nat) :
    (bytes (front ++ c :: rest))[byteLength front + 1 + i]? = (bytes rest)[i]? := by
  rw [← byteLength_concat h, List.append_cons, getElem?_bytes_append]

theorem underscoreBefore_eq (front rest : List Char)
    (hlast : ∀ c ∈ front.getLast?, c.toNat < 128) :
    underscoreBefore (front ++ rest) (byteLength front) = .ok (front.getLast? == some '_') := by
  rcases List.eq_nil_or_concat front with rfl | ⟨init, c, rfl⟩
  · rfl
  · rw [List.concat_eq_append] at hlast ⊢
    obtain ⟨byte, hbyte, -, hvalue⟩ := exists_byte_cons c rest
    have hc := byteLength_concat (hlast c (by simp)) init
    have hat := getElem?_bytes_append init (c :: rest) 0
    rw [Nat.add_zero, hbyte] at hat
    have hsame : (byte == '_'.toUInt8) = (c == '_') := by
      rw [Bool.eq_iff_iff, beq_iff_eq, beq_iff_eq]
      exact hvalue '_' (by decide)
    rw [underscoreBefore, hc, ← List.append_cons, Nat.add_sub_cancel, if_pos (Nat.succ_pos _)]
    simp only [byteAt, hat, ok_bind, hsame]
    simp

/-- The first byte of a text tells whether the text starts with a digit. -/
theorem any_isDigitByte (text : List Char) :
    (bytes text)[0]?.any isDigitByte = text.head?.any Char.isDigit := by
  cases text with
  | nil => rfl
  | cons c rest =>
    obtain ⟨byte, hbyte, hdigit, -⟩ := exists_byte_cons c rest
    rw [hbyte]
    exact hdigit

/-- An exponent has its digits behind the mark, or behind a sign there. -/
theorem exponentDigits?_eq {c : Char} (hc : c.toNat < 128) (front rest : List Char) :
    exponentDigits? (front ++ c :: rest) (byteLength front) =
      if rest.head?.any Char.isDigit then some (byteLength front + 1)
      else
        match rest with
        | sign :: digit :: _ =>
          if (sign = '+' ∨ sign = '-') ∧ digit.isDigit then some (byteLength front + 2) else none
        | _ => none := by
  have hbehind := getElem?_bytes_cons hc front rest 0
  rw [Nat.add_zero] at hbehind
  cases rest with
  | nil =>
    have hnone : (bytes [])[0]? = none := rfl
    simp only [exponentDigits?, hbehind, hnone, reduceCtorEq, or_self, if_false, Option.any_none,
      List.head?_nil, Bool.false_eq_true]
  | cons sign rest =>
    obtain ⟨byte, hbyte, hdigit, hvalue⟩ := exists_byte_cons sign rest
    rw [hbyte] at hbehind
    simp only [exponentDigits?, hbehind, Option.some.injEq, hvalue '+' (by decide),
      hvalue '-' (by decide)]
    by_cases hsign : sign = '+' ∨ sign = '-'
    · have hascii : sign.toNat < 128 := by
        rcases hsign with rfl | rfl <;> decide
      have hnodigit : ¬ (sign :: rest).head?.any Char.isDigit = true := by
        rcases hsign with rfl | rfl <;> simp
      have hnext := getElem?_bytes_cons hascii (front ++ [c]) rest 0
      rw [byteLength_concat hc, ← List.append_cons, Nat.add_zero] at hnext
      rw [if_pos hsign, hnext, any_isDigitByte, if_neg hnodigit]
      cases rest with
      | nil => rfl
      | cons digit rest =>
        by_cases hdigits : digit.isDigit
        · simp [hsign, hdigits]
        · simp [hdigits]
    · rw [if_neg hsign, hbehind, Option.any_some, hdigit]
      cases rest with
      | nil => rfl
      | cons digit rest => simp only [List.head?_cons, Option.any_some, hsign, false_and, if_false]

/-- How a search for the end of a decimal literal ends where the rule has read the text. -/
def DecimalEnd.stop (text : List Char) : DecimalEnd → Handled (Nat × Bool)
  | .complete isFloat => .ok (byteLength text, isFloat)
  | .badUnderscore => refuse (.invalidNumber (String.ofList text))
  | .badFloat => refuse (.invalidFloat (String.ofList text))
  | .badExponent => refuse (.invalidExponent (String.ofList text))

/-- What the search for the end of a decimal literal does with its next character. -/
theorem decimalStop_cons {rounds : Nat} {isFloat hasExponent : Bool} (front rest : List Char)
    (c : Char) (hlast : ∀ c ∈ front.getLast?, c.toNat < 128) :
    decimalStop (front ++ c :: rest) (rounds + 1) (byteLength front) isFloat hasExponent =
      if c.isDigit then
        decimalStop (front ++ c :: rest) rounds (byteLength front + 1) isFloat hasExponent
      else if c = '_' then
        if front.getLast? == some '_' then DecimalEnd.badUnderscore.stop (front ++ [c])
        else decimalStop (front ++ c :: rest) rounds (byteLength front + 1) isFloat hasExponent
      else if c = '.' then
        if isFloat then DecimalEnd.badFloat.stop (front ++ [c])
        else decimalStop (front ++ c :: rest) rounds (byteLength front + 1) true hasExponent
      else if c = 'e' ∨ c = 'E' then
        if hasExponent then DecimalEnd.badFloat.stop (front ++ [c])
        else
          match exponentDigits? (front ++ c :: rest) (byteLength front) with
          | some start => decimalStop (front ++ c :: rest) rounds start true true
          | none => DecimalEnd.badExponent.stop (front ++ c :: rest.head?.toList)
      else (DecimalEnd.complete isFloat).stop front := by
  obtain ⟨byte, hbyte, hdigit, hvalue⟩ := exists_byte_cons c rest
  have hat := getElem?_bytes_append front (c :: rest) 0
  rw [Nat.add_zero, hbyte] at hat
  have htext : front ++ c :: rest = (front ++ [c]) ++ rest := List.append_cons ..
  have hstop : c.toNat < 128 → byteLength front + 1 = byteLength (front ++ [c]) := fun hc =>
    (byteLength_concat hc front).symm
  have hrefuse : ∀ cause : String → LexicalCause, c.toNat < 128 →
      (refuseUpTo cause (byteLength front + 1) (front ++ c :: rest) : Handled (Nat × Bool)) =
        refuse (cause (String.ofList (front ++ [c]))) := fun cause hc =>
    refuseUpTo_of_eq cause htext (hstop hc)
  -- both sides ask the same of the next character, in the same order
  rw [decimalStop, hat]
  simp only [hdigit, hvalue '_' (by decide), hvalue '.' (by decide), hvalue 'e' (by decide),
    hvalue 'E' (by decide), underscoreBefore_eq front (c :: rest) hlast, ok_bind]
  by_cases hc : c.isDigit
  · rw [if_pos hc, if_pos hc]
  rw [if_neg hc, if_neg hc]
  by_cases hunderscore : c = '_'
  · have hascii : c.toNat < 128 := by
      rw [hunderscore]
      decide
    rw [if_pos hunderscore, if_pos hunderscore, hrefuse _ hascii]
    rfl
  rw [if_neg hunderscore, if_neg hunderscore]
  by_cases hpoint : c = '.'
  · have hascii : c.toNat < 128 := by
      rw [hpoint]
      decide
    rw [if_pos hpoint, if_pos hpoint, hrefuse _ hascii]
    rfl
  rw [if_neg hpoint, if_neg hpoint]
  by_cases hmark : c = 'e' ∨ c = 'E'
  · have hascii : c.toNat < 128 := by
      rcases hmark with rfl | rfl <;> decide
    rw [if_pos hmark, if_pos hmark, hrefuse _ hascii]
    cases hstart : exponentDigits? (front ++ c :: rest) (byteLength front) with
    | some start => rfl
    | none =>
      simp only [sliceTo_of_eq htext (hstop hascii), sliceFrom_of_eq htext (hstop hascii), ok_bind,
        ← List.append_cons]
      rfl
  rw [if_neg hmark, if_neg hmark]
  rfl

/-- In so many rounds the search ends behind what the rule reads. -/
def Stops (rounds : Nat) : Prop :=
  ∀ (isFloat hasExponent underscored : Bool) (front rest : List Char),
    (∀ c ∈ front.getLast?, c.toNat < 128) → (front.getLast? == some '_') = underscored →
    rest.length < rounds →
    decimalStop (front ++ rest) rounds (byteLength front) isFloat hasExponent =
      (decimalRun isFloat hasExponent underscored rest).2.stop
        (front ++ (decimalRun isFloat hasExponent underscored rest).1)

variable {rounds : Nat} {c : Char} {rest : List Char}

/-- A character that the search passes moves over to the text in front. -/
theorem Stops.pass (h : Stops rounds) (hc : c.toNat < 128) (hrounds : rest.length < rounds)
    (isFloat hasExponent : Bool) (front : List Char) :
    decimalStop (front ++ c :: rest) rounds (byteLength front + 1) isFloat hasExponent =
      (decimalRun isFloat hasExponent (c == '_') rest).2.stop
        (front ++ c :: (decimalRun isFloat hasExponent (c == '_') rest).1) := by
  have hnext := h isFloat hasExponent (c == '_') (front ++ [c]) rest (by simpa using hc) (by simp)
    hrounds
  rw [byteLength_concat hc, ← List.append_cons, ← List.append_cons] at hnext
  exact hnext

/-- Behind the mark of an exponent, the search passes a sign only before a digit. -/
theorem Stops.exponent (h : Stops rounds) (hmark : c = 'e' ∨ c = 'E')
    (hrounds : rest.length < rounds) (isFloat underscored : Bool) (front : List Char) :
    (match exponentDigits? (front ++ c :: rest) (byteLength front) with
      | some start => decimalStop (front ++ c :: rest) rounds start true true
      | none => DecimalEnd.badExponent.stop (front ++ c :: rest.head?.toList)) =
      (decimalRun isFloat false underscored (c :: rest)).2.stop
        (front ++ (decimalRun isFloat false underscored (c :: rest)).1) := by
  have hc : c.toNat < 128 := by
    rcases hmark with rfl | rfl <;> decide
  have hdigit : ¬ c.isDigit = true := by
    rcases hmark with rfl | rfl <;> decide
  have hne : (c == '_') = false := by
    rcases hmark with rfl | rfl <;> rfl
  have hpoint : c ≠ '.' := by
    rcases hmark with rfl | rfl <;> decide
  rw [exponentDigits?_eq hc, decimalRun_cons, if_neg hdigit, if_neg (beq_eq_false_iff_ne.mp hne),
    if_neg hpoint, if_pos hmark, if_neg Bool.false_ne_true]
  by_cases hdigits : rest.head?.any Char.isDigit
  · have hpass := h.pass hc hrounds true true front
    rw [hne] at hpass
    rw [if_pos hdigits, if_pos hdigits]
    exact hpass
  rw [if_neg hdigits, if_neg hdigits]
  cases rest with
  | nil => rfl
  | cons sign rest =>
    cases rest with
    | nil => rfl
    | cons digit further =>
      -- a sign belongs to the exponent only if a digit follows it
      by_cases hsigned : (sign = '+' ∨ sign = '-') ∧ digit.isDigit
      · obtain ⟨hsign, hdigit⟩ := hsigned
        have hascii : sign.toNat < 128 := by
          rcases hsign with rfl | rfl <;> decide
        have hlast : (sign == '_') = false := by
          rcases hsign with rfl | rfl <;> rfl
        have hpass := h.pass hascii (Nat.lt_of_succ_lt hrounds) true true (front ++ [c])
        rw [byteLength_concat hc, hlast, decimalRun_cons, if_pos hdigit] at hpass
        simpa [hsign, hdigit] using hpass
      · simp only [hsigned, if_false]
        rfl

theorem stops (rounds : Nat) : Stops rounds := by
  induction rounds with
  | zero =>
    intro isFloat hasExponent underscored front rest _ _ hrounds
    omega
  | succ rounds ih =>
    intro isFloat hasExponent underscored front rest hascii hfront hrounds
    cases rest with
    | nil => simp [decimalStop, decimalRun, DecimalEnd.stop]
    | cons c rest =>
      -- whatever character is passed, it is a single byte, so the next round starts behind it
      have hpass : c.toNat < 128 → _ := fun hc => ih.pass hc (Nat.lt_of_succ_lt_succ hrounds)
      rw [decimalStop_cons front rest c hascii, decimalRun_cons]
      by_cases hdigit : c.isDigit
      · have hne : (c == '_') = false := by
          apply beq_eq_false_iff_ne.mpr
          intro hunderscore
          rw [hunderscore] at hdigit
          cases hdigit
        rw [if_pos hdigit, if_pos hdigit, hpass (ascii_of_isDigit hdigit), hne]
      rw [if_neg hdigit, if_neg hdigit]
      by_cases hunderscore : c = '_'
      · subst hunderscore
        rw [if_pos rfl, if_pos rfl, hfront, hpass (by decide)]
        cases underscored <;> rfl
      rw [if_neg hunderscore, if_neg hunderscore]
      by_cases hpoint : c = '.'
      · subst hpoint
        rw [if_pos rfl, if_pos rfl, hpass (by decide)]
        cases isFloat <;> rfl
      rw [if_neg hpoint, if_neg hpoint]
      by_cases hmark : c = 'e' ∨ c = 'E'
      · have hexponent :=
          ih.exponent hmark (Nat.lt_of_succ_lt_succ hrounds) isFloat underscored front
        rw [decimalRun_cons, if_neg hdigit, if_neg hunderscore, if_neg hpoint, if_pos hmark]
          at hexponent
        rw [if_pos hmark, if_pos hmark]
        cases hasExponent with
        | true => rfl
        | false => exact hexponent
      · rw [if_neg hmark, if_neg hmark, List.append_nil]

theorem handleDecimal_eq (text : List Char) :
    handleDecimal text = counted (decimalLiteral text) := by
  have hrounds : text.length < (bytes text).length + 1 := by
    rw [length_bytes]
    exact Nat.lt_succ_of_le (length_le_byteLength text)
  have hstop := stops _ false false false [] text (by simp) rfl hrounds
  simp only [List.nil_append, byteLength_nil] at hstop
  simp only [handleDecimal, hstop, decimalLiteral]
  cases hrun : decimalRun false false false text with
  | mk run ending =>
    cases ending with
    | complete isFloat =>
      obtain ⟨more, rfl⟩ := decimalRun_starts hrun
      simp only [DecimalEnd.stop, ok_bind, sliceTo_append]
      by_cases hlast : run.getLast? = some '_'
      · rw [if_pos hlast, if_pos hlast, counted_error]
      · rw [if_neg hlast, if_neg hlast, take_append, counted_ok]
    | badUnderscore => rfl
    | badFloat => rfl
    | badExponent => rfl

theorem handleNumber_eq (text : List Char) : handleNumber text = counted (number text) := by
  unfold handleNumber number
  cases hmark : Radix.marked.find? fun radix => radix.mark.toList.isPrefixOf text with
  | none => exact handleDecimal_eq text
  | some radix =>
    have hstarts := List.find?_some hmark
    obtain ⟨rest, rfl⟩ := List.isPrefixOf_iff_prefix.mp hstarts
    have hdrop : (radix.mark.toList ++ rest).drop radix.mark.length = rest := by
      rw [← String.length_toList, List.drop_left]
    simp only [hdrop]
    exact handleRadix_eq radix rest

end FrontEnd.Lexical
