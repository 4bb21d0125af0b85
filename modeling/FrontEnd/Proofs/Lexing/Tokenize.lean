import FrontEnd.Lexical.Tokenize
import FrontEnd.Proofs.Lexing.Digits

/-! A text that leaves room for its lines and columns is tokenized without a fault. Each handler
counts what the rule of its pattern reads, so the cursor stands between two characters in every
round, moves on in it, and finds the tokens that the scan by characters finds. -/
namespace FrontEnd.Lexical

open Text

section

variable {c : Char} {rest text : List Char} {pattern : Pattern}

theorem handle_word (h : opensWord c = true) :
    Pattern.word.handle (c :: rest) = counted (.ok (word (c :: rest))) := by
  have htake : (c :: rest).takeWhile continuesWord = c :: rest.takeWhile continuesWord := by
    rw [List.takeWhile_cons, if_pos (continuesWord_of_opensWord h)]
  have hmatched : Pattern.word.matchedBytes (c :: rest) =
      byteLength ((c :: rest).takeWhile continuesWord) := by
    simp [Pattern.matchedBytes, Pattern.match?, h, htake]
  have htext := List.takeWhile_append_dropWhile (p := continuesWord) (l := c :: rest)
  have hvalue := take_append .word none ((c :: rest).takeWhile continuesWord)
    ((c :: rest).dropWhile continuesWord)
  rw [htext] at hvalue
  simp only [Pattern.handle, hmatched, hvalue, word, counted_ok]

theorem handle_operator (c : Char) (rest : List Char) :
    Pattern.operator.handle (c :: rest) = counted (fixedToken c rest) := by
  simp only [Pattern.handle, handleOperator, fixedToken]
  cases fixedToken? (c :: rest) with
  | none => rfl
  | some entry => simp [Extent.ofReading, Reading.plain]

theorem handle_blanks (h : isBlank c = true) :
    Pattern.blanks.handle (c :: rest) = counted (.ok (blanks (c :: rest))) := by
  simp [Pattern.handle, Pattern.matchedBytes, Pattern.match?, h, blanks, Extent.ofReading,
    Reading.trivia]

theorem handle_lineComment (rest : List Char) :
    Pattern.lineComment.handle ('/' :: '/' :: rest) =
      counted (.ok (lineComment ('/' :: '/' :: rest))) := by
  simp [Pattern.handle, Pattern.matchedBytes, Pattern.match?, Pattern.literal?, lineComment,
    Extent.ofReading, Reading.trivia]

/-- On a text that its pattern matches, a handler counts what the rule reads. -/
theorem Pattern.handle_eq (h : pattern.Opens c rest) :
    pattern.handle (c :: rest) = counted (pattern.rule c rest) := by
  cases pattern with
  | blanks => exact handle_blanks h
  | lineComment =>
    obtain ⟨rfl, hnext⟩ := h
    obtain ⟨more, rfl⟩ := List.head?_eq_some_iff.mp hnext
    exact handle_lineComment more
  | blockComment =>
    obtain ⟨rfl, hnext⟩ := h
    obtain ⟨more, rfl⟩ := List.head?_eq_some_iff.mp hnext
    exact handleComment_eq more
  | string =>
    obtain rfl := h
    exact handle_string rest
  | rawString =>
    obtain ⟨rfl, hnext⟩ := h
    obtain ⟨more, rfl⟩ := List.head?_eq_some_iff.mp hnext
    exact handle_rawString more
  | character =>
    obtain rfl := h
    exact handleCharacter_eq rest
  | number => exact handleNumber_eq (c :: rest)
  | word => exact handle_word h
  | operator => exact handle_operator c rest

theorem handle_cons (c : Char) (rest : List Char) :
    handle (c :: rest) = counted (read c rest) := by
  rw [handle, read_eq_rule]
  cases hfirst : Pattern.all.find? fun pattern => (pattern.match? (c :: rest)).isSome with
  | none => rfl
  | some pattern =>
    have hmatch := List.find?_some hfirst
    exact Pattern.handle_eq ((pattern.isSome_match?_cons c rest).mp hmatch)

/-- Where the pattern of the operators matches, the text starts with an entry of the table of fixed
tokens, and the first such entry is the longest one. -/
theorem fixedToken?_longest {entry : String × TokenKind} (h : fixedToken? text = some entry) :
    entry.1.toList <+: text ∧
      ∀ other ∈ TokenKind.fixed, other.1.toList <+: text → other.1.length ≤ entry.1.length := by
  have hsorted : TokenKind.fixed.Pairwise fun a b => b.1.length ≤ a.1.length := by decide
  refine ⟨fixedToken?_starts h, ?_⟩
  intro other hother hstarts
  obtain ⟨-, before, behind, htable, hbefore⟩ := List.find?_eq_some_iff_append.mp h
  rw [htable] at hother hsorted
  rcases List.mem_append.mp hother with hmem | hmem
  · -- entries before the first one are no starts of the text
    have hno := hbefore other hmem
    rw [List.isPrefixOf_iff_prefix.mpr hstarts] at hno
    cases hno
  · cases hmem with
    | head => exact Nat.le_refl _
    | tail _ hmem =>
      have hbehind := (List.pairwise_append.mp hsorted).2.1
      exact (List.pairwise_cons.mp hbehind).1 other hmem

/-- On a text that its pattern matches, a handler slices between characters only, and what it finds
is some text up to the end of a character. -/
theorem Pattern.handle_safe (h : (pattern.match? text).isSome = true) :
    (∀ f, pattern.handle text ≠ .error (.fault f)) ∧
      ∀ extent, pattern.handle text = .ok extent →
        0 < extent.bytes ∧ Boundary text extent.bytes := by
  cases text with
  | nil =>
    rw [pattern.isSome_match?_nil] at h
    cases h
  | cons c rest =>
    have hopens := (pattern.isSome_match?_cons c rest).mp h
    rw [Pattern.handle_eq hopens]
    refine ⟨counted_ne_fault _, ?_⟩
    intro extent hextent
    cases hrule : pattern.rule c rest with
    | error cause =>
      rw [hrule] at hextent
      cases hextent
    | ok reading =>
      rw [hrule] at hextent
      cases hextent
      obtain ⟨cs, more, htext, rfl⟩ := (rule_of_opens hopens hrule).starts
      have hpos := c.utf8Size_pos
      simp only [Extent.ofReading, htext, byteLength_cons]
      exact ⟨by omega, c :: cs, more, rfl, rfl⟩

end

variable {ε : Type}

/-- Every place behind one of the characters of a text that starts at the position has a line and a
column of 32 bits. -/
def Counts (position : Position) (text : List Char) : Prop :=
  ∀ part, part <+: text → part ≠ [] →
    (position.after part).line < counterLimit ∧ (position.after part).column < counterLimit

theorem counts_nil (position : Position) : Counts position [] := by
  intro part hpart hne
  exact absurd (List.prefix_nil.mp hpart) hne

theorem counts_cons {position : Position} {c : Char} {cs : List Char} :
    Counts position (c :: cs) ↔
      ((position.step c).line < counterLimit ∧ (position.step c).column < counterLimit) ∧
        Counts (position.step c) cs := by
  constructor
  · intro h
    refine ⟨h [c] ⟨cs, rfl⟩ (List.cons_ne_nil _ _), fun part hpart _ => ?_⟩
    exact h (c :: part) (List.prefix_cons_inj c |>.mpr hpart) (List.cons_ne_nil _ _)
  · intro h part hpart hne
    obtain ⟨hc, hcs⟩ := h
    obtain ⟨d, part, rfl⟩ := List.exists_cons_of_ne_nil hne
    obtain ⟨rfl, hrest⟩ := List.cons_prefix_cons.mp hpart
    by_cases hnil : part = []
    · rw [hnil]
      exact hc
    · exact hcs part hrest hnil

/-- The positions are counted one by one, and the first that cannot be ends the count. -/
theorem foldlM_count_eq_ok_iff {text : List Char} {position next : Position} :
    (text.foldlM ByteCursor.count position : Except (Failure ε) _) = .ok next ↔
      Counts position text ∧ next = position.after text := by
  induction text generalizing position with
  | nil => simp [counts_nil, pure, Except.pure, eq_comm]
  | cons c cs ih =>
    rw [List.foldlM_cons, ByteCursor.count, counts_cons, Position.after_cons]
    by_cases hc : (position.step c).line < counterLimit ∧ (position.step c).column < counterLimit
    · simp only [hc, and_self, if_true, ok_bind, ih, true_and]
    · simp [hc]

/-- The lines and columns of `n` more characters can be counted. -/
def Room (position : Position) (n : Nat) : Prop :=
  position.line + n < counterLimit ∧ max position.column 1 + n < counterLimit

/-- A character takes the room of one. -/
theorem Room.step {position : Position} {n : Nat} (h : Room position (n + 1)) (c : Char) :
    ((position.step c).line < counterLimit ∧ (position.step c).column < counterLimit) ∧
      Room (position.step c) n := by
  obtain ⟨hline, hcolumn⟩ := h
  unfold Room Position.step
  split <;> simp only <;> omega

theorem Room.counts {text : List Char} {position : Position} {n : Nat}
    (h : Room position (text.length + n)) :
    Counts position text ∧ Room (position.after text) n := by
  induction text generalizing position with
  | nil =>
    rw [List.length_nil, Nat.zero_add] at h
    exact ⟨counts_nil position, h⟩
  | cons c cs ih =>
    have hroom : Room position (cs.length + n + 1) := by
      rw [Nat.add_right_comm]
      exact h
    obtain ⟨hc, hnext⟩ := hroom.step c
    obtain ⟨hcs, hrest⟩ := ih hnext
    rw [counts_cons, Position.after_cons]
    exact ⟨⟨hc, hcs⟩, hrest⟩

variable {front back : List Char} {position : Position}

theorem remainder_eq (front back : List Char) (position : Position) :
    (ByteCursor.remainder ⟨front ++ back, byteLength front, position⟩ : Except (Failure ε) _) =
      .ok back :=
  sliceFrom_append front back

theorem atEnd_eq (front back : List Char) (position : Position) :
    ByteCursor.atEnd ⟨front ++ back, byteLength front, position⟩ = back.isEmpty := by
  cases back with
  | nil => simp [ByteCursor.atEnd]
  | cons c rest =>
    have hc := c.utf8Size_pos
    simp [ByteCursor.atEnd]
    omega

/-- The cursor moves over a stretch of text that it can count. At the end of the text it may have
been asked to move further. -/
theorem advance_of_count {n : Nat} {next : Position} (passed : List Char)
    (hcount : (passed.foldlM ByteCursor.count position : Except (Failure ε) _) = .ok next)
    (hlimit : byteLength front + n < addressLimit)
    (hstop : byteLength (front ++ passed) =
      min (byteLength front + n) (byteLength (front ++ passed ++ back))) :
    (ByteCursor.advance ⟨front ++ passed ++ back, byteLength front, position⟩ n :
        Except (Failure ε) _) =
      .ok ⟨front ++ passed ++ back, byteLength (front ++ passed), next⟩ := by
  have hslice := slice_append (ε := ε) front passed back
  rw [← List.append_assoc, ← byteLength_append] at hslice
  have hin : ¬ addressLimit ≤ byteLength front + n := Nat.not_le_of_lt hlimit
  simp only [ByteCursor.advance, hin, if_false, ← hstop, hslice, ok_bind, hcount]

/-- The cursor moves over a stretch of text to the place behind its last character. -/
theorem advance_append {n : Nat} (passed : List Char) (hroom : Room position (passed.length + n))
    (hlength : byteLength (front ++ passed ++ back) < addressLimit) :
    (ByteCursor.advance ⟨front ++ passed ++ back, byteLength front, position⟩
        (byteLength passed) : Except (Failure ε) _) =
      .ok ⟨front ++ passed ++ back, byteLength (front ++ passed), position.after passed⟩ := by
  have hsum := byteLength_append (front ++ passed) back
  have hstop := byteLength_append front passed
  have hcount := foldlM_count_eq_ok_iff (ε := ε).mpr ⟨hroom.counts.1, rfl⟩
  exact advance_of_count passed hcount (by omega) (by omega)

theorem round_error {c : Char} {rest : List Char} {cause : LexicalCause}
    (h : read c rest = .error cause) :
    ByteCursor.round ⟨front ++ c :: rest, byteLength front, position⟩ =
      .error (.refused ⟨cause, position⟩) := by
  rw [ByteCursor.round, remainder_eq, ok_bind, handle_cons, h]
  rfl

/-- What is read in a round is some text at the cursor, and the cursor moves over it. -/
theorem round_ok {c : Char} {rest : List Char} {reading : Reading}
    (h : read c rest = .ok reading) (hroom : Room position (c :: rest).length)
    (hlength : byteLength (front ++ c :: rest) < addressLimit) :
    ∃ more, c :: rest = reading.text ++ more ∧ reading.text ≠ [] ∧
      ByteCursor.round ⟨front ++ c :: rest, byteLength front, position⟩ =
        .ok (⟨front ++ reading.text ++ more, byteLength (front ++ reading.text),
          position.after reading.text⟩, reading.lexeme) ∧
      Room (position.after reading.text) more.length := by
  obtain ⟨cs, more, htext, rfl⟩ := (rule_of_read h).starts
  have hsplit : c :: (cs ++ more) = reading.text ++ more := by
    rw [htext]
    rfl
  have hhandle : handle (reading.text ++ more) = .ok (.ofReading reading) := by
    rw [← hsplit, handle_cons, h]
    rfl
  rw [hsplit] at hroom hlength ⊢
  rw [List.length_append] at hroom
  have hremainder := remainder_eq (ε := LexicalError) front (reading.text ++ more) position
  rw [← List.append_assoc] at hlength hremainder ⊢
  have hadvance := advance_append (ε := LexicalError) reading.text hroom hlength
  refine ⟨more, rfl, by simp [htext], ?_, hroom.counts.2⟩
  simp only [ByteCursor.round, hremainder, ok_bind, hhandle, Extent.ofReading, hadvance]

/-- From a place between two characters on, the tokens are those of the scan. -/
theorem tokenizeFrom_eq (rounds : Nat) :
    ∀ {front back : List Char} {position : Position} (tokens : Array Token),
      Room position back.length → byteLength (front ++ back) < addressLimit →
      (tokenizeFrom rounds ⟨front ++ back, byteLength front, position⟩ tokens).map Array.toList =
        (scan rounds tokens.size ⟨back, byteLength front, position⟩).map (tokens.toList ++ ·) := by
  induction rounds with
  | zero =>
    intro front back position tokens _ _
    rfl
  | succ rounds ih =>
    intro front back position tokens hroom hlength
    rw [tokenizeFrom, atEnd_eq]
    cases back with
    | nil => simp [scan, Except.map]
    | cons c rest =>
      rw [if_neg (by simp)]
      -- a round of either loop reads the same at the same place
      cases hread : read c rest with
      | error cause =>
        rw [round_error hread, error_bind]
        simp [scan, hread, Except.map]
      | ok reading =>
        obtain ⟨more, htext, -, hround, hleft⟩ := round_ok hread hroom hlength
        rw [htext, ← List.append_assoc] at hlength
        rw [hround, ok_bind]
        obtain ⟨text, lexeme⟩ := reading
        cases lexeme with
        | none =>
          rw [scan_trivia hread htext, ← byteLength_append]
          exact ih tokens hleft hlength
        | some l =>
          have hrest := ih
            (tokens.push ⟨l, ⟨byteLength front, byteLength (front ++ text)⟩, tokens.size⟩)
            hleft hlength
          rw [Array.size_push] at hrest
          rw [scan_round hread htext, ← byteLength_append]
          simp only [hrest]
          cases scan rounds (tokens.size + 1)
              ⟨more, byteLength (front ++ text), position.after text⟩ with
          | error failure => rfl
          | ok later => simp [Except.map]

/-- A scan has rounds enough, and it moves over whole characters. -/
theorem scan_ne_fault {rounds : Nat} :
    ∀ {index offset : Nat} {rest : List Char} {position : Position} (f : Fault),
      rest.length < rounds → scan rounds index ⟨rest, offset, position⟩ ≠ .error (.fault f) := by
  induction rounds with
  | zero =>
    intro index offset rest position f hrounds
    omega
  | succ rounds ih =>
    intro index offset rest position f hrounds
    cases rest with
    | nil => simp [scan]
    | cons c rest =>
      cases hread : read c rest with
      | error cause => simp [scan, hread]
      | ok reading =>
        obtain ⟨cs, more, htext, rfl⟩ := (rule_of_read hread).starts
        obtain ⟨text, lexeme⟩ := reading
        obtain rfl : text = c :: cs := htext
        have hmore : more.length < rounds := by
          simp only [List.length_cons, List.length_append] at hrounds
          omega
        cases lexeme with
        | none =>
          rw [scan_trivia hread rfl]
          exact ih f hmore
        | some l =>
          rw [scan_round hread rfl]
          cases hlater : scan rounds (index + 1)
              ⟨more, offset + byteLength (c :: cs), position.after (c :: cs)⟩ with
          | error failure =>
            intro heq
            cases heq
            exact ih f hmore hlater
          | ok later => simp

/-- The cursors that the rounds start from while a text is tokenized. -/
inductive Visits (source : String) : ByteCursor → Prop where
  | start : Visits source (.start source)
  | round {cursor next : ByteCursor} {lexeme : Option Lexeme} : Visits source cursor →
      cursor.atEnd = false → cursor.round = .ok (next, lexeme) → Visits source next

/-- The cursor stands between two characters, and what is left of the text can be counted. -/
def Stands (source : String) (cursor : ByteCursor) : Prop :=
  ∃ front back, source.toList = front ++ back ∧ Room cursor.position back.length ∧
    cursor = ⟨front ++ back, byteLength front, cursor.position⟩

section

variable {source : String} {cursor next : ByteCursor} {lexeme : Option Lexeme}

theorem length_lt_addressLimit (h : source.length < counterLimit - 1) :
    byteLength source.toList < addressLimit := by
  have hbytes := byteLength_le source.toList
  have hlimits : 4 * counterLimit ≤ addressLimit := by decide
  rw [String.length_toList] at hbytes
  omega

theorem room_start (h : source.length < counterLimit - 1) :
    Room .start source.toList.length := by
  rw [String.length_toList]
  simp only [Position.start, Room]
  omega

/-- A round does not fault, and it takes the cursor to a later place between two characters. -/
theorem Stands.round (hlength : byteLength source.toList < addressLimit)
    (h : Stands source cursor) (hend : cursor.atEnd = false) :
    (∀ f, cursor.round ≠ .error (.fault f)) ∧
      ∀ next lexeme, cursor.round = .ok (next, lexeme) →
        Stands source next ∧ cursor.pos < next.pos := by
  obtain ⟨front, back, hsource, hroom, hcursor⟩ := h
  rw [hcursor, atEnd_eq] at hend
  rw [hsource] at hlength
  cases back with
  | nil => cases hend
  | cons c rest =>
    rw [hcursor]
    cases hread : read c rest with
    | error cause =>
      rw [round_error hread]
      simp
    | ok reading =>
      obtain ⟨more, htext, hne, hround, hleft⟩ := round_ok hread hroom hlength
      rw [hround]
      refine ⟨by simp, ?_⟩
      intro next lexeme hnext
      cases hnext
      obtain ⟨d, cs, hcs⟩ := List.exists_cons_of_ne_nil hne
      have hd := d.utf8Size_pos
      refine ⟨⟨front ++ reading.text, more, ?_, hleft, rfl⟩, ?_⟩
      · rw [hsource, htext, List.append_assoc]
      · simp only [hcs, byteLength_append, byteLength_cons]
        omega

/-- Every cursor of a run stands between two characters. -/
theorem Visits.stands (h : source.length < counterLimit - 1) (hvisits : Visits source cursor) :
    Stands source cursor := by
  induction hvisits with
  | start => exact ⟨[], source.toList, rfl, room_start h, rfl⟩
  | round _ hend hround ih =>
    exact ((ih.round (length_lt_addressLimit h) hend).2 _ _ hround).1

/-- What holds of the run over a text. -/
structure Safe (source : String) : Prop where
  /-- The run ends with tokens or with a lexical error. -/
  answered : ∀ f, tokenize source ≠ .error (.fault f)
  scanned : tokenize source = Token.ofSource source
  /-- No round faults, and each one takes the cursor to a later place between two characters. -/
  rounds : ∀ cursor, Visits source cursor → cursor.atEnd = false →
    (∀ f, cursor.round ≠ .error (.fault f)) ∧
      ∀ next lexeme, cursor.round = .ok (next, lexeme) →
        cursor.pos < next.pos ∧ Boundary source.toList next.pos

theorem tokenize_eq (h : source.length < counterLimit - 1) :
    tokenize source = Token.ofSource source := by
  have hrun : (tokenizeFrom (source.length + 1) (.start source) #[]).map Array.toList =
      (scan (source.length + 1) 0 (.ofSource source)).map ([] ++ ·) :=
    @tokenizeFrom_eq _ [] source.toList .start #[] (room_start h) (length_lt_addressLimit h)
  have htokens : tokenize source =
      (tokenizeFrom (source.length + 1) (.start source) #[]).map Array.toList := by
    rw [tokenize]
    cases tokenizeFrom (source.length + 1) (.start source) #[] <;> rfl
  have hscan : Token.ofSource source = scan (source.length + 1) 0 (.ofSource source) := by
    rw [← String.length_toList]
    rfl
  rw [htokens, hrun, hscan]
  cases scan (source.length + 1) 0 (.ofSource source) <;> rfl

theorem Safe.of_length (h : source.length < counterLimit - 1) : Safe source where
  answered f := by
    rw [tokenize_eq h]
    exact scan_ne_fault f (Nat.lt_succ_self _)
  scanned := tokenize_eq h
  rounds cursor hvisits hend := by
    obtain ⟨hfault, hmoves⟩ := (hvisits.stands h).round (length_lt_addressLimit h) hend
    refine ⟨hfault, ?_⟩
    intro next lexeme hround
    obtain ⟨⟨front, back, hsource, -, hnext⟩, hlt⟩ := hmoves next lexeme hround
    refine ⟨hlt, front, back, hsource, ?_⟩
    rw [hnext]

/-- Tokenizing is free of faults and ends on every text whose lines and columns can be counted. A
handler slices between characters only and passes some text; the pattern of the operators matches
only where the table of fixed tokens has an entry, and its first entry there is the longest. -/
theorem tokenize_safe (h : source.length < counterLimit - 1) :
    Safe source ∧
    (∀ (pattern : Pattern) (text : List Char), (pattern.match? text).isSome = true →
      (∀ f, pattern.handle text ≠ .error (.fault f)) ∧
        ∀ extent, pattern.handle text = .ok extent →
          0 < extent.bytes ∧ Boundary text extent.bytes) ∧
    ∀ text : List Char, (Pattern.operator.match? text).isSome = true →
      ∃ entry, fixedToken? text = some entry ∧ entry.1.toList <+: text ∧
        ∀ other ∈ TokenKind.fixed, other.1.toList <+: text →
          other.1.length ≤ entry.1.length := by
  refine ⟨.of_length h, fun _ _ => Pattern.handle_safe, ?_⟩
  intro text hmatch
  rw [Pattern.isSome_operator] at hmatch
  obtain ⟨entry, hentry⟩ := Option.isSome_iff_exists.mp hmatch
  exact ⟨entry, hentry, fixedToken?_longest hentry⟩

/-- Characters of several bytes stand next to numbers, in literals and in comments. -/
theorem tokenize_safe_wide :
    "a/*→*/'ü'0x1F\u20031_0.5e+3\u2003\"ö\\\"\"<<b//日".length < counterLimit - 1 ∧
      Safe "a/*→*/'ü'0x1F\u20031_0.5e+3\u2003\"ö\\\"\"<<b//日" := by
  have hlength : "a/*→*/'ü'0x1F\u20031_0.5e+3\u2003\"ö\\\"\"<<b//日".length < counterLimit - 1 := by
    decide
  exact ⟨hlength, (tokenize_safe hlength).1⟩

end

end FrontEnd.Lexical
