import FrontEnd.Proofs.Lexing.Pattern
import FrontEnd.Proofs.Lexing.Rules
import FrontEnd.Tree.Printer

/-! Lexemes are read back from their own text. A word or a literal that was read once is read again
wherever its text is followed by something that separates; a fixed token is read where no longer
one starts. -/
namespace FrontEnd.Lexical

open Text

/-- Before the given text, the text of the lexeme is read as the lexeme. -/
def Reads (l : Lexeme) (more : List Char) : Prop :=
  ∃ c cs, l.text.toList = c :: cs ∧ read c (cs ++ more) = .ok ⟨c :: cs, some l⟩

/-- The lexeme is read wherever a separating character or nothing follows. -/
def Written (l : Lexeme) : Prop :=
  ∀ more, Ends more → Reads l more

/-- The kinds of words and literals. -/
def openKinds : List TokenKind :=
  [.word, .string, .rawString, .character, .integer, .float]

section

variable {c : Char} {rest body run : List Char}

theorem written_string (h : stringBody rest = some body) :
    Written ⟨.string, String.ofList body, none⟩ := by
  intro more _
  refine ⟨'"', body ++ ['"'], by simp [Lexeme.text], ?_⟩
  show string (body ++ ['"'] ++ more) = _
  rw [List.append_assoc]
  unfold string
  rw [List.singleton_append, stringBody_local h]
  rfl

theorem written_rawString (h : rawStringBody rest = some body) :
    Written ⟨.rawString, String.ofList body, none⟩ := by
  intro more _
  refine ⟨'r', '"' :: body ++ ['"'], by simp [Lexeme.text], ?_⟩
  show rawString (body ++ ['"'] ++ more) = _
  rw [List.append_assoc]
  unfold rawString
  rw [List.singleton_append, rawStringBody_local h]
  rfl

theorem written_character (h : characterBody rest = .ok body) :
    Written ⟨.character, String.ofList body, none⟩ := by
  intro more _
  refine ⟨'\'', body ++ ['\''], by simp [Lexeme.text], ?_⟩
  show character (body ++ ['\''] ++ more) = _
  rw [List.append_assoc]
  unfold character
  rw [List.singleton_append, characterBody_local h]
  simp [bind, Except.bind, Reading.enclosed]

theorem isBlank_of_opensNumber (h : opensNumber c rest = true) : isBlank c = false := by
  refine Bool.eq_false_iff.mpr fun hblank => ?_
  have hranges := isBlank_ranges hblank
  simp only [opensNumber, Bool.or_eq_true, Bool.and_eq_true, beq_iff_eq, isDigit_iff] at h
  rcases h with h | ⟨rfl, -⟩
  · omega
  · exact absurd hblank (by decide)

theorem isBlank_of_opensWord (h : opensWord c = true) : isBlank c = false := by
  refine Bool.eq_false_iff.mpr fun hblank => ?_
  have hranges := isBlank_ranges hblank
  simp only [opensWord, Bool.or_eq_true, beq_iff_eq, isAlpha_iff] at h
  rcases h with h | rfl
  · omega
  · exact absurd hblank (by decide)

/-- A character that opens a number is none that opens nothing of the sort. -/
theorem ne_of_opensNumber {d : Char} (h : opensNumber c rest = true) (hd : d.isDigit = false)
    (hpoint : d ≠ '.') : c ≠ d := by
  rintro rfl
  simp only [opensNumber, Bool.or_eq_true, Bool.and_eq_true, beq_iff_eq] at h
  rcases h with h | h
  · rw [hd] at h
    cases h
  · exact hpoint h.1

theorem read_number (h : opensNumber c rest = true) : read c rest = number (c :: rest) := by
  have hslash : c ≠ '/' := ne_of_opensNumber h (by decide) (by decide)
  have hquote : c ≠ '"' := ne_of_opensNumber h (by decide) (by decide)
  have hraw : c ≠ 'r' := ne_of_opensNumber h (by decide) (by decide)
  have hsingle : c ≠ '\'' := ne_of_opensNumber h (by decide) (by decide)
  unfold read
  rw [isBlank_of_opensNumber h]
  simp [hslash, hquote, hraw, hsingle, h]

theorem read_word (h : opensWord c = true) (hraw : ¬ (c = 'r' ∧ rest.head? = some '"')) :
    read c rest = .ok (word (c :: rest)) := by
  have hne : ∀ {d : Char}, opensWord d = false → c ≠ d := by
    rintro d hd rfl
    rw [h] at hd
    cases hd
  have hnumber : opensNumber c rest = false := by
    refine Bool.eq_false_iff.mpr fun hn => ?_
    simp only [opensNumber, Bool.or_eq_true, Bool.and_eq_true, beq_iff_eq, isDigit_iff] at hn
    simp only [opensWord, Bool.or_eq_true, beq_iff_eq, isAlpha_iff] at h
    rcases hn with hn | ⟨rfl, -⟩
    · rcases h with h | rfl
      · omega
      · revert hn
        decide
    · revert h
      decide
  have hslash : c ≠ '/' := hne (by decide)
  have hquote : c ≠ '"' := hne (by decide)
  have hsingle : c ≠ '\'' := hne (by decide)
  unfold read
  rw [isBlank_of_opensWord h, if_neg hraw]
  simp [hslash, hquote, hsingle, hnumber, h]

theorem continuesWord_of_opensWord (h : opensWord c = true) : continuesWord c = true := by
  simp only [opensWord, Bool.or_eq_true, beq_iff_eq] at h
  simp only [continuesWord, Char.isAlphanum, Bool.or_eq_true, beq_iff_eq]
  exact h.imp_left .inl

theorem written_word (h : opensWord c = true) (rest : List Char) :
    Written (.word (String.ofList ((c :: rest).takeWhile continuesWord))) := by
  intro more hmore
  have hstop : ∀ d ∈ more.head?, continuesWord d = false := fun d hd =>
    continuesWord_of_separates (hmore d hd)
  have htake : (c :: rest).takeWhile continuesWord = c :: rest.takeWhile continuesWord := by
    rw [List.takeWhile_cons, if_pos (continuesWord_of_opensWord h)]
  refine ⟨c, rest.takeWhile continuesWord, by simp [Lexeme.text, Lexeme.word, htake], ?_⟩
  -- the word may be `r`; a quote behind it would make it the mark of a raw string
  have hraw : ¬ (c = 'r' ∧ (rest.takeWhile continuesWord ++ more).head? = some '"') := by
    rintro ⟨-, hhead⟩
    cases hrun : rest.takeWhile continuesWord with
    | nil =>
      rw [hrun, List.nil_append] at hhead
      exact absurd (hmore '"' hhead) (by decide)
    | cons d run =>
      rw [hrun, List.cons_append, List.head?_cons, Option.some.injEq] at hhead
      have hd : continuesWord d = true :=
        List.all_eq_true.mp List.all_takeWhile d (hrun ▸ List.mem_cons_self)
      rw [hhead] at hd
      exact absurd hd (by decide)
  rw [read_word h hraw, word, ← List.cons_append, ← htake, takeWhile_takeWhile_append hstop]
  rfl

/-- The mark of a radix opens a number of that radix, whatever follows. -/
theorem number_mark {radix : Radix} (h : radix ∈ Radix.marked) (text : List Char) :
    number (radix.mark.toList ++ text) = radixLiteral radix text := by
  simp only [Radix.marked, List.mem_cons, List.not_mem_nil, or_false] at h
  rcases h with rfl | rfl | rfl <;> rfl

theorem written_radix {radix : Radix} (hradix : radix ∈ Radix.marked)
    (h : radixRun radix false rest = (run, none))
    (hlast : run.getLast?.any radix.isDigit = true) :
    Written ⟨.integer, String.ofList (radix.mark.toList ++ run), some radix⟩ := by
  intro more hmore
  obtain ⟨cs, hcs⟩ : ∃ cs, radix.mark.toList = '0' :: cs := by
    simp only [Radix.marked, List.mem_cons, List.not_mem_nil, or_false] at hradix
    rcases hradix with rfl | rfl | rfl <;> exact ⟨_, rfl⟩
  refine ⟨'0', cs ++ run, by simp [Lexeme.text, hcs], ?_⟩
  rw [read_number rfl, List.append_assoc, ← List.cons_append, ← hcs, number_mark hradix]
  unfold radixLiteral
  rw [radixRun_local h hmore]
  simp only [hlast, if_true, hcs]
  rfl

theorem mark_eq {radix : Radix} (h : radix ∈ Radix.marked) :
    ∃ m, radix.mark.toList = ['0', m] ∧ separates m = false := by
  simp only [Radix.marked, List.mem_cons, List.not_mem_nil, or_false] at h
  rcases h with rfl | rfl | rfl <;> exact ⟨_, rfl, by decide⟩

/-- A number without a mark has none before another text that ends it. -/
theorem number_unmarked {cs tail more : List Char} (hmore : Ends more)
    (h : (Radix.marked.find? fun radix =>
      radix.mark.toList.isPrefixOf (c :: (cs ++ tail))) = none) :
    number (c :: (cs ++ more)) = decimalLiteral (c :: (cs ++ more)) := by
  have hnone : (Radix.marked.find? fun radix =>
      radix.mark.toList.isPrefixOf (c :: (cs ++ more))) = none := by
    rw [List.find?_eq_none] at h ⊢
    intro radix hradix hmark
    refine h radix hradix ?_
    obtain ⟨m, hm, hseparates⟩ := mark_eq hradix
    rw [hm] at hmark ⊢
    cases cs with
    | cons d cs => simpa using hmark
    | nil =>
      -- the second character of the mark would be the one that ends the number
      cases more with
      | nil => simp at hmark
      | cons d more =>
        simp only [List.nil_append, List.isPrefixOf_cons_cons, Bool.and_eq_true,
          beq_iff_eq] at hmark
        have hd := hmore d rfl
        rw [← hmark.2.1, hseparates] at hd
        cases hd
  unfold number
  rw [hnone]

/-- What opens a number is part of it, the digit behind a first point included. -/
theorem decimalRun_opens {ending : DecimalEnd} (hopens : opensNumber c rest = true)
    (h : decimalRun false false false (c :: rest) = (run, ending)) :
    ∃ cs, run = c :: cs ∧ ∀ more, opensNumber c (cs ++ more) = true := by
  simp only [opensNumber, Bool.or_eq_true, Bool.and_eq_true, beq_iff_eq] at hopens
  rcases hopens with hdigit | ⟨rfl, hdigit⟩
  · rw [decimalRun_cons, if_pos hdigit] at h
    refine ⟨_, (Prod.mk.inj h).1.symm, fun more => ?_⟩
    simp [opensNumber, hdigit]
  · rw [decimalRun_cons, if_neg (by decide), if_neg (by decide), if_pos rfl,
      if_neg (by decide)] at h
    cases hrun : decimalRun true false false rest with
    | mk run' ending' =>
      -- a point alone opens no number, so the digit behind it is read as well
      have hhead := decimalRun_digit hrun hdigit
      rw [hrun] at h
      refine ⟨run', (Prod.mk.inj h).1.symm, fun more => ?_⟩
      cases run' with
      | nil => cases hhead
      | cons d run' =>
        have hd : d.isDigit = true := hhead
        simp [opensNumber, hd]

theorem written_decimal {isFloat : Bool} (hopens : opensNumber c rest = true)
    (hmark : (Radix.marked.find? fun radix => radix.mark.toList.isPrefixOf (c :: rest)) = none)
    (h : decimalRun false false false (c :: rest) = (run, .complete isFloat))
    (hlast : run.getLast? ≠ some '_') :
    Written ⟨if isFloat then .float else .integer, String.ofList run, some .decimal⟩ := by
  intro more hmore
  obtain ⟨cs, rfl, hopens'⟩ := decimalRun_opens hopens h
  obtain ⟨tail, htail⟩ := decimalRun_starts h
  obtain ⟨-, rfl⟩ := List.cons.inj htail
  refine ⟨c, cs, by cases isFloat <;> simp [Lexeme.text], ?_⟩
  rw [read_number (hopens' more), number_unmarked hmore hmark, ← List.cons_append]
  unfold decimalLiteral
  rw [decimalRun_local h hmore]
  simp only [if_neg hlast]
  rfl

/-- The rule that reads at the start of a text, and what it reads there. -/
inductive Rule (c : Char) (rest : List Char) : Reading → Prop where
  | blanks : isBlank c = true → Rule c rest (Lexical.blanks (c :: rest))
  | lineComment : c = '/' → rest.head? = some '/' → Rule c rest (Lexical.lineComment (c :: rest))
  | blockComment (body : List Char) : c = '/' → rest.head? = some '*' →
      commentBody rest.tail = some body → Rule c rest (.trivia ('/' :: '*' :: body))
  | string (body : List Char) : c = '"' → stringBody rest = some body →
      Rule c rest (.enclosed .string ['"'] body ['"'])
  | rawString (body : List Char) : c = 'r' → rest.head? = some '"' →
      rawStringBody rest.tail = some body → Rule c rest (.enclosed .rawString ['r', '"'] body ['"'])
  | character (body : List Char) : c = '\'' → characterBody rest = .ok body →
      (rest.drop body.length).head? = some '\'' →
      Rule c rest (.enclosed .character ['\''] body ['\''])
  | radix (radix : Radix) (run : List Char) : radix ∈ Radix.marked →
      radix.mark.toList.isPrefixOf (c :: rest) = true →
      radixRun radix false ((c :: rest).drop radix.mark.length) = (run, none) →
      run.getLast?.any radix.isDigit = true →
      Rule c rest (.plain .integer (radix.mark.toList ++ run) (some radix))
  | decimal (isFloat : Bool) (run : List Char) : opensNumber c rest = true →
      (Radix.marked.find? fun radix => radix.mark.toList.isPrefixOf (c :: rest)) = none →
      decimalRun false false false (c :: rest) = (run, .complete isFloat) →
      run.getLast? ≠ some '_' →
      Rule c rest (.plain (if isFloat then .float else .integer) run (some .decimal))
  | word : opensWord c = true → Rule c rest (Lexical.word (c :: rest))
  | fixed (text : String) (kind : TokenKind) : fixedToken? (c :: rest) = some (text, kind) →
      Rule c rest (.plain kind text.toList none)

theorem rule_of_number {reading : Reading} (hopens : opensNumber c rest = true)
    (h : number (c :: rest) = .ok reading) : Rule c rest reading := by
  unfold number at h
  split at h
  · rename_i radix hradix
    unfold radixLiteral at h
    cases hrun : radixRun radix false ((c :: rest).drop radix.mark.length) with
    | mk run offender =>
      simp only [hrun] at h
      split at h
      · cases h
      · split at h
        · rename_i hlast
          cases h
          have hmark := List.find?_some hradix
          exact .radix radix run (List.mem_of_find?_eq_some hradix) hmark hrun hlast
        · cases h
  · rename_i hmark
    unfold decimalLiteral at h
    cases hrun : decimalRun false false false (c :: rest) with
    | mk run ending =>
      simp only [hrun] at h
      cases ending with
      | complete isFloat =>
        simp only at h
        split at h
        · cases h
        · rename_i hlast
          cases h
          exact .decimal isFloat run hopens hmark hrun hlast
      | badUnderscore => cases h
      | badFloat => cases h
      | badExponent => cases h

theorem rule_of_opens {pattern : Pattern} {reading : Reading} (hopens : pattern.Opens c rest)
    (h : pattern.rule c rest = .ok reading) : Rule c rest reading := by
  cases pattern with
  | blanks =>
    cases h
    exact .blanks hopens
  | lineComment =>
    cases h
    exact .lineComment hopens.1 hopens.2
  | blockComment =>
    simp only [Pattern.rule, blockComment] at h
    split at h
    · rename_i body hbody
      cases h
      exact .blockComment body hopens.1 hopens.2 hbody
    · cases h
  | string =>
    simp only [Pattern.rule, string] at h
    split at h
    · rename_i body hbody
      cases h
      exact .string body hopens hbody
    · cases h
  | rawString =>
    simp only [Pattern.rule, rawString] at h
    split at h
    · rename_i body hbody
      cases h
      exact .rawString body hopens.1 hopens.2 hbody
    · cases h
  | character =>
    simp only [Pattern.rule, character] at h
    cases hbody : characterBody rest with
    | error cause =>
      rw [hbody] at h
      cases h
    | ok body =>
      simp only [hbody, bind, Except.bind] at h
      split at h
      · rename_i hclose
        cases h
        exact .character body hopens hbody hclose
      · cases h
  | number => exact rule_of_number hopens h
  | word =>
    cases h
    exact .word hopens
  | operator =>
    simp only [Pattern.rule, fixedToken] at h
    split at h
    · rename_i text kind hfixed
      cases h
      exact .fixed text kind hfixed
    · cases h

/-- Whatever is read is read by one of the rules. -/
theorem rule_of_read {reading : Reading} (h : read c rest = .ok reading) : Rule c rest reading := by
  rcases read_cases c rest with ⟨pattern, hopens, hrule⟩ | hnone
  · exact rule_of_opens hopens (hrule.symm.trans h)
  · cases hnone.symm.trans h

/-- No fixed token is a word or a literal. -/
theorem fixedToken?_kind {text : List Char} {entry : String × TokenKind}
    (h : fixedToken? text = some entry) : entry.2 ∉ openKinds := by
  have hall : ∀ entry ∈ TokenKind.fixed, entry.2 ∉ openKinds := by decide
  exact hall entry (List.mem_of_find?_eq_some h)

/-- A word or a literal that is read is one that can be written, and it is as it is printed. -/
theorem read_written {l : Lexeme} {text : List Char} (h : read c rest = .ok ⟨text, some l⟩)
    (hkind : l.kind ∈ openKinds) :
    Written l ∧ (l = .word l.value ∨ ∃ kind : LiteralKind, l = kind.lexeme l.value) := by
  cases rule_of_read h with
  | string body _ hbody => exact ⟨written_string hbody, .inr ⟨.string, rfl⟩⟩
  | rawString body _ _ hbody => exact ⟨written_rawString hbody, .inr ⟨.rawString, rfl⟩⟩
  | character body _ hbody _ => exact ⟨written_character hbody, .inr ⟨.character, rfl⟩⟩
  | radix radix run hradix _ hrun hlast =>
    exact ⟨written_radix hradix hrun hlast, .inr ⟨.integer radix, rfl⟩⟩
  | decimal isFloat run hopens hmark hrun hlast =>
    refine ⟨written_decimal hopens hmark hrun hlast, .inr ?_⟩
    cases isFloat with
    | true => exact ⟨.float, rfl⟩
    | false => exact ⟨.integer .decimal, rfl⟩
  | word hopens => exact ⟨written_word hopens rest, .inl rfl⟩
  | fixed text kind hfixed => exact absurd hkind (fixedToken?_kind hfixed)

end

theorem written_keyword (keyword : Keyword) : Written (.word keyword.text) := by
  have hword : ∀ c cs, opensWord c = true → (c :: cs).takeWhile continuesWord = c :: cs →
      Written (.word (String.ofList (c :: cs))) := by
    intro c cs hc htake
    rw [← htake]
    exact written_word hc cs
  cases keyword
  · exact hword 'l' ['e', 't'] (by decide) (by decide)
  · exact hword 'v' ['a', 'r'] (by decide) (by decide)
  · exact hword 'a' ['s'] (by decide) (by decide)
  · exact hword 'a' ['c', 't', 'i', 'o', 'n'] (by decide) (by decide)
  · exact hword 'c' ['o', 'm', 'p', 'u', 't', 'e'] (by decide) (by decide)
  · exact hword 'r' ['e', 't', 'u', 'r', 'n'] (by decide) (by decide)
  · exact hword 'i' ['m', 'p', 'o', 'r', 't'] (by decide) (by decide)
  · exact hword 'e' ['x', 't', 'e', 'r', 'n'] (by decide) (by decide)

/-- The fixed tokens that are no part of longer ones. -/
def closedKinds : List TokenKind :=
  [.openParen, .closeParen, .openCurly, .closeCurly, .comma, .semicolon, .doubleColon, .arrow,
    .star]

theorem reads_fixed {kind : TokenKind} (h : kind ∈ closedKinds) (more : List Char) :
    Reads (.fixed kind) more := by
  simp only [closedKinds, List.mem_cons, List.not_mem_nil, or_false] at h
  rcases h with rfl | rfl | rfl | rfl | rfl | rfl | rfl | rfl | rfl <;> exact ⟨_, _, rfl, rfl⟩

theorem reads_assign (more : List Char) : Reads (.fixed .assign) (' ' :: more) :=
  ⟨_, _, rfl, rfl⟩

/-- No fixed token is glued to a blank. -/
theorem reads_operation (operation : Operation) (more : List Char) :
    Reads operation.lexeme (' ' :: more) := by
  cases operation with
  | cast => exact written_keyword .asKey _ (ends_cons (by decide))
  | _ => exact ⟨_, _, rfl, rfl⟩

/-- The signs before operands are part of a longer token with two characters only. -/
theorem reads_sign {operation : Operation} (h : operation.isUnary = true) {d : Char}
    (hequals : d ≠ '=') (hgreater : d ≠ '>') (more : List Char) :
    Reads operation.lexeme (d :: more) := by
  cases operation with
  | logicalNot =>
    have hfixed : fixedToken? ('!' :: d :: more) = some ("!", .exclamation) := by
      simp [fixedToken?, TokenKind.fixed, hequals.symm]
    refine ⟨'!', [], rfl, ?_⟩
    -- only `!=` would be longer
    show fixedToken '!' (d :: more) = _
    rw [fixedToken, hfixed]
    rfl
  | negate =>
    have hfixed : fixedToken? ('-' :: d :: more) = some ("-", .dash) := by
      simp [fixedToken?, TokenKind.fixed, hgreater.symm]
    refine ⟨'-', [], rfl, ?_⟩
    -- only `->` would be longer
    show fixedToken '-' (d :: more) = _
    rw [fixedToken, hfixed]
    rfl
  | plus => exact ⟨_, _, rfl, rfl⟩
  | _ => cases h

/-- What opens an expression is glued to no sign before it. -/
theorem Written.head {l : Lexeme} (h : Written l) (hkind : l.kind ∈ openKinds) :
    ∃ c cs, l.text.toList = c :: cs ∧ c ≠ '=' ∧ c ≠ '>' := by
  obtain ⟨c, cs, htext, hread⟩ := h [] ends_nil
  have hfixed : ∀ d, fixedToken d (cs ++ []) ≠ .ok ⟨d :: cs, some l⟩ := by
    intro d heq
    unfold fixedToken at heq
    split at heq
    · rename_i text kind hentry
      have hl := congrArg Reading.lexeme (Except.ok.inj heq)
      rw [← Option.some.inj hl] at hkind
      exact fixedToken?_kind hentry hkind
    · cases heq
  refine ⟨c, cs, htext, ?_, ?_⟩
  · rintro rfl
    exact hfixed '=' hread
  · rintro rfl
    exact hfixed '>' hread

end FrontEnd.Lexical
