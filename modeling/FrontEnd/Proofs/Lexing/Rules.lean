import FrontEnd.Proofs.Lexing.Quoted

/-! The lexical rules look no further than they have to. A rule reads the same before any other text
that ends what was read: what stands between quotes is read up to the closing one, and a word or a
number is ended by any character that cannot be part of it. -/
namespace FrontEnd.Lexical

open Text

/-- Blanks and punctuation end every word and every number, apart from a point, which may go on
with a number, and a quote, which may make a word the mark of a raw string. -/
def separates (c : Char) : Bool :=
  (isBlank c || isPunctuation c) && c != '.' && c != '"'

/-- The text is empty or starts with a character that separates. -/
def Ends (text : List Char) : Prop :=
  ∀ c ∈ text.head?, separates c = true

theorem ends_nil : Ends [] := by
  simp [Ends]

theorem ends_cons {c : Char} {rest : List Char} (h : separates c = true) : Ends (c :: rest) := by
  rintro _ ⟨⟩
  exact h

theorem isDigit_iff {c : Char} : c.isDigit = true ↔ 48 ≤ c.toNat ∧ c.toNat ≤ 57 := by
  simp [Char.isDigit, UInt32.le_iff_toNat_le]

theorem isAlpha_iff {c : Char} : c.isAlpha = true ↔
    (65 ≤ c.toNat ∧ c.toNat ≤ 90) ∨ (97 ≤ c.toNat ∧ c.toNat ≤ 122) := by
  delta Char.isAlpha Char.isUpper Char.isLower
  simp [UInt32.le_iff_toNat_le]

theorem isBlank_iff {c : Char} : isBlank c = true ↔
    ∃ r ∈ blankTable, r.first ≤ c.toNat ∧ c.toNat ≤ r.last := by
  simp only [isBlank, CharRange.anyContains, List.any_eq_true, CharRange.contains_iff]

theorem isBlank_ranges {c : Char} (h : isBlank c = true) :
    c.toNat ≤ 32 ∨ 133 ≤ c.toNat := by
  obtain ⟨r, hr, hc⟩ := isBlank_iff.mp h
  simp only [blankTable, List.mem_cons, List.not_mem_nil, or_false] at hr
  rcases hr with rfl | rfl | rfl | rfl | rfl | rfl | rfl | rfl | rfl | rfl <;>
    simp only at hc <;> omega

theorem continuesWord_of_separates {c : Char} (h : separates c = true) :
    continuesWord c = false := by
  refine Bool.eq_false_iff.mpr fun hc => ?_
  simp only [continuesWord, Char.isAlphanum, Bool.or_eq_true, isAlpha_iff, isDigit_iff,
    beq_iff_eq] at hc
  simp only [separates, Bool.and_eq_true, Bool.or_eq_true] at h
  rcases hc with hc | rfl
  · rcases h.1.1 with hblank | hpunct
    · have := isBlank_ranges hblank
      omega
    · simp only [isPunctuation, CharRange.anyContains, punctuationTable, List.any_cons,
        List.any_nil, Bool.and_eq_true, Bool.or_eq_true, CharRange.contains_iff,
        Bool.or_false] at hpunct
      omega
  · revert h
    decide

theorem isDigit_of_separates {c : Char} (h : separates c = true) : c.isDigit = false := by
  have hword := continuesWord_of_separates h
  simp only [continuesWord, Char.isAlphanum, Bool.or_eq_false_iff] at hword
  exact hword.1.2

/-- A separating character is none of the given ones, if these do not separate. -/
theorem ne_of_separates {c d : Char} (h : separates c = true) (hd : separates d = false) :
    c ≠ d := by
  rintro rfl
  rw [h] at hd
  cases hd

theorem takeWhile_takeWhile_append {p : Char → Bool} {text more : List Char}
    (hmore : ∀ c ∈ more.head?, p c = false) :
    (text.takeWhile p ++ more).takeWhile p = text.takeWhile p := by
  exact takeWhile_append_of_ends (List.all_eq_true.mp List.all_takeWhile) hmore

theorem isDigit_radix_of_separates {c : Char} (h : separates c = true) (radix : Radix) :
    radix.isDigit c = false := by
  have hdigit : ¬ (48 ≤ c.toNat ∧ c.toNat ≤ 57) := by
    rw [← isDigit_iff, isDigit_of_separates h]
    decide
  have hletter : ¬ ((65 ≤ c.toNat ∧ c.toNat ≤ 90) ∨ (97 ≤ c.toNat ∧ c.toNat ≤ 122)) := by
    have hword := continuesWord_of_separates h
    simp only [continuesWord, Char.isAlphanum, Bool.or_eq_false_iff] at hword
    rw [← isAlpha_iff, hword.1.1]
    decide
  refine Bool.eq_false_iff.mpr fun hc => ?_
  cases radix with
  | decimal => exact hdigit (isDigit_iff.mp hc)
  | hex =>
    simp [Radix.isDigit, isHexDigit, isDigit_iff, Char.le_def, UInt32.le_iff_toNat_le] at hc
    omega
  | octal =>
    simp [Radix.isDigit, Char.le_def, UInt32.le_iff_toNat_le] at hc
    omega
  | binary =>
    simp only [Radix.isDigit, Bool.or_eq_true, beq_iff_eq] at hc
    rcases hc with rfl | rfl <;> exact absurd h (by decide)

theorem radixRun_of_ends (radix : Radix) (underscored : Bool) {more : List Char}
    (hmore : Ends more) : radixRun radix underscored more = ([], none) := by
  cases more with
  | nil => rfl
  | cons c more =>
    have hc := hmore c rfl
    have hunder : ¬ (c = '_' ∧ underscored = false) := fun h =>
      ne_of_separates hc (by decide) h.1
    have hstop : (isBlank c || isPunctuation c) = true := by
      simp only [separates, Bool.and_eq_true] at hc
      exact hc.1.1
    rw [radixRun, if_neg (by rw [isDigit_radix_of_separates hc]; decide), if_neg hunder,
      if_pos hstop]

/-- The digits of a literal with a radix are the same before every text that ends them. -/
theorem radixRun_append {radix : Radix} {underscored : Bool} {text run more : List Char}
    (h : radixRun radix underscored text = (run, none))
    (hmore : ∀ underscored, radixRun radix underscored more = ([], none)) :
    radixRun radix underscored (run ++ more) = (run, none) := by
  fun_induction radixRun radix underscored text generalizing run with
  | case1 underscored =>
    obtain rfl : [] = run := (Prod.mk.inj h).1
    exact hmore underscored
  | case2 underscored c rest hdigit run' offender hrun ih =>
    obtain ⟨rfl, rfl⟩ := Prod.mk.inj h
    simp [radixRun, hdigit, ih hrun]
  | case3 underscored c rest hdigit hunder run' offender hrun ih =>
    obtain ⟨rfl, rfl⟩ := Prod.mk.inj h
    rw [List.cons_append, radixRun, if_neg hdigit, if_pos hunder, ih hrun]
  | case4 underscored c rest hdigit hunder hstop =>
    obtain rfl : [] = run := (Prod.mk.inj h).1
    exact hmore underscored
  | case5 underscored c rest hdigit hunder hstop => cases (Prod.mk.inj h).2

theorem radixRun_local {radix : Radix} {underscored : Bool} {text run : List Char}
    (h : radixRun radix underscored text = (run, none)) {more : List Char} (hmore : Ends more) :
    radixRun radix underscored (run ++ more) = (run, none) :=
  radixRun_append h fun underscored => radixRun_of_ends radix underscored hmore

/-- What a decimal literal does with its next character. -/
theorem decimalRun_cons (isFloat hasExponent underscored : Bool) (c : Char) (rest : List Char) :
    decimalRun isFloat hasExponent underscored (c :: rest) =
      if c.isDigit then
        let (run, ending) := decimalRun isFloat hasExponent false rest
        (c :: run, ending)
      else if c = '_' then
        if underscored then ([c], .badUnderscore)
        else
          let (run, ending) := decimalRun isFloat hasExponent true rest
          (c :: run, ending)
      else if c = '.' then
        if isFloat then ([c], .badFloat)
        else
          let (run, ending) := decimalRun true hasExponent false rest
          (c :: run, ending)
      else if c = 'e' ∨ c = 'E' then
        if hasExponent then ([c], .badFloat)
        else if rest.head?.any Char.isDigit then
          let (run, ending) := decimalRun true true false rest
          (c :: run, ending)
        else
          match rest with
          | sign :: digit :: further =>
            if (sign = '+' ∨ sign = '-') ∧ digit.isDigit then
              let (run, ending) := decimalRun true true false further
              (c :: sign :: digit :: run, ending)
            else ([c, sign], .badExponent)
          | _ => (c :: rest, .badExponent)
      else ([], .complete isFloat) :=
  decimalRun.eq_def ..

theorem decimalRun_of_ends (isFloat hasExponent underscored : Bool) {more : List Char}
    (hmore : Ends more) :
    decimalRun isFloat hasExponent underscored more = ([], .complete isFloat) := by
  cases more with
  | nil => rfl
  | cons c more =>
    have hc := hmore c rfl
    have hexponent : ¬ (c = 'e' ∨ c = 'E') := by
      rintro (rfl | rfl) <;> exact absurd hc (by decide)
    rw [decimalRun_cons, if_neg (by rw [isDigit_of_separates hc]; decide),
      if_neg (ne_of_separates hc (by decide)), if_neg (ne_of_separates hc (by decide)),
      if_neg hexponent]

/-- A run from a digit on starts with it. -/
theorem decimalRun_digit {isFloat hasExponent underscored : Bool} {text run : List Char}
    {ending : DecimalEnd} (h : decimalRun isFloat hasExponent underscored text = (run, ending))
    (hdigit : text.head?.any Char.isDigit = true) : run.head?.any Char.isDigit = true := by
  cases text with
  | nil => cases hdigit
  | cons c rest =>
    have hc : c.isDigit = true := hdigit
    rw [decimalRun_cons, if_pos hc] at h
    rw [← (Prod.mk.inj h).1]
    exact hc

/-- A decimal literal is the same before every text that ends it. -/
theorem decimalRun_append {isFloat hasExponent underscored ending : Bool}
    {text run more : List Char}
    (h : decimalRun isFloat hasExponent underscored text = (run, .complete ending))
    (hmore : ∀ isFloat hasExponent underscored,
      decimalRun isFloat hasExponent underscored more = ([], .complete isFloat)) :
    decimalRun isFloat hasExponent underscored (run ++ more) = (run, .complete ending) := by
  fun_induction decimalRun isFloat hasExponent underscored text generalizing run with
  | case1 isFloat hasExponent underscored =>
    obtain ⟨rfl, hending⟩ := Prod.mk.inj h
    rw [← hending]
    exact hmore _ _ _
  | case2 isFloat hasExponent underscored c rest hdigit run' ending' hrun ih =>
    obtain ⟨rfl, rfl⟩ := Prod.mk.inj h
    rw [List.cons_append, decimalRun_cons, if_pos hdigit, ih hrun]
  | case4 isFloat hasExponent underscored rest hunder run' ending' hrun hdigit ih =>
    obtain ⟨rfl, rfl⟩ := Prod.mk.inj h
    rw [List.cons_append, decimalRun_cons, if_neg hdigit, if_pos rfl, if_neg hunder, ih hrun]
  | case6 isFloat hasExponent underscored rest hfloat run' ending' hrun hdigit hunder ih =>
    obtain ⟨rfl, rfl⟩ := Prod.mk.inj h
    rw [List.cons_append, decimalRun_cons, if_neg hdigit, if_neg hunder, if_pos rfl,
      if_neg hfloat, ih hrun]
  | case8 isFloat hasExponent underscored c rest hdigit hunder hpoint hexp hfirst hnext run'
      ending' hrun ih =>
    obtain ⟨rfl, rfl⟩ := Prod.mk.inj h
    have hnext' : (run' ++ more).head?.any Char.isDigit = true := by
      have hdigits := decimalRun_digit hrun hnext
      cases run' with
      | nil => cases hdigits
      | cons d run' => exact hdigits
    rw [List.cons_append, decimalRun_cons, if_neg hdigit, if_neg hunder, if_neg hpoint,
      if_pos hexp, if_neg hfirst, if_pos hnext', ih hrun]
  | case9 isFloat hasExponent underscored c hdigit hunder hpoint hexp hfirst sign digit further
      hsign run' ending' hrun hnext ih =>
    obtain ⟨rfl, rfl⟩ := Prod.mk.inj h
    have hnext' : ¬ (sign :: digit :: (run' ++ more)).head?.any Char.isDigit = true := hnext
    rw [List.cons_append, List.cons_append, List.cons_append, decimalRun_cons, if_neg hdigit,
      if_neg hunder, if_neg hpoint, if_pos hexp, if_neg hfirst, if_neg hnext']
    simp only [if_pos hsign, ih hrun]
  | case12 isFloat hasExponent underscored c rest hdigit hunder hpoint hexp =>
    obtain ⟨rfl, hending⟩ := Prod.mk.inj h
    rw [← hending]
    exact hmore _ _ _
  | _ => cases (Prod.mk.inj h).2

theorem decimalRun_local {isFloat hasExponent underscored ending : Bool} {text run : List Char}
    (h : decimalRun isFloat hasExponent underscored text = (run, .complete ending))
    {more : List Char} (hmore : Ends more) :
    decimalRun isFloat hasExponent underscored (run ++ more) = (run, .complete ending) :=
  decimalRun_append h fun _ _ _ => decimalRun_of_ends _ _ _ hmore

theorem decimalRun_starts {isFloat hasExponent underscored : Bool} {text run : List Char}
    {ending : DecimalEnd} (h : decimalRun isFloat hasExponent underscored text = (run, ending)) :
    run <+: text := by
  fun_induction decimalRun isFloat hasExponent underscored text generalizing run with
  | case2 _ _ _ c rest _ run' _ hrun ih =>
    obtain ⟨rfl, rfl⟩ := Prod.mk.inj h
    exact List.prefix_cons_inj c |>.mpr (ih hrun)
  | case4 _ _ _ rest _ run' _ hrun _ ih =>
    obtain ⟨rfl, rfl⟩ := Prod.mk.inj h
    exact List.prefix_cons_inj _ |>.mpr (ih hrun)
  | case6 _ _ _ rest _ run' _ hrun _ _ ih =>
    obtain ⟨rfl, rfl⟩ := Prod.mk.inj h
    exact List.prefix_cons_inj _ |>.mpr (ih hrun)
  | case8 _ _ _ c rest _ _ _ _ _ _ run' _ hrun ih =>
    obtain ⟨rfl, rfl⟩ := Prod.mk.inj h
    exact List.prefix_cons_inj c |>.mpr (ih hrun)
  | case9 _ _ _ c _ _ _ _ _ sign digit further _ run' _ hrun _ ih =>
    obtain ⟨rfl, rfl⟩ := Prod.mk.inj h
    exact List.prefix_append_right_inj [c, sign, digit] |>.mpr (ih hrun)
  | _ =>
    obtain ⟨rfl, rfl⟩ := Prod.mk.inj h
    simp

end FrontEnd.Lexical
