import FrontEnd.Lexical.Handler
import FrontEnd.Proofs.Lexing.Slice
import Mathlib.Data.List.TakeWhile

/-! The handlers count in bytes what the lexical rules read in characters. On a text that its
pattern matches a handler passes the bytes of what the rule reads, makes the same lexeme of them, or
refuses the text for the same reason; so it slices nowhere else than between two characters. -/
namespace FrontEnd.Lexical

open Text

/-- What a handler finds where a rule has read something. -/
def Extent.ofReading (reading : Reading) : Extent :=
  ⟨byteLength reading.text, reading.lexeme⟩

/-- The result of a handler where the rule has the given one. -/
def counted : Except LexicalCause Reading → Handled Extent
  | .ok reading => .ok (.ofReading reading)
  | .error cause => refuse cause

@[simp] theorem counted_ok (reading : Reading) :
    counted (.ok reading) = .ok (.ofReading reading) := rfl

@[simp] theorem counted_error (cause : LexicalCause) :
    counted (.error cause) = refuse cause := rfl

theorem counted_ne_fault (result : Except LexicalCause Reading) (f : Fault) :
    counted result ≠ .error (.fault f) := by
  cases result with
  | ok reading => simp
  | error cause => simp [refuse]

variable {α : Type}

@[simp] theorem refuse_bind {β : Type} (cause : LexicalCause) (next : α → Handled β) :
    ((refuse cause : Handled α) >>= next) = refuse cause := rfl

theorem take_append (kind : TokenKind) (radix : Option Radix) (front back : List Char) :
    take kind radix (byteLength front) (front ++ back) =
      .ok (.ofReading (.plain kind front radix)) := by
  simp [take, Extent.ofReading, Reading.plain]

/-- A refused text is shown up to a place between two characters. -/
theorem refuseUpTo_append (cause : String → LexicalCause) (front back : List Char) :
    (refuseUpTo cause (byteLength front) (front ++ back) : Handled α) =
      refuse (cause (String.ofList front)) := by
  simp [refuseUpTo]

/-- The first closing mark lies where the body of the comment ends with it. -/
theorem find?_eq_commentBody (text : List Char) :
    find? ['*', '/'] text = (commentBody text).map fun body => byteLength body - 2 := by
  fun_induction commentBody text with
  | case1 => rfl
  | case2 more => rfl
  | case3 c rest hclose ih =>
    -- no closing mark starts here, or the body would have ended
    have hstart : ¬ ['*', '/'].isPrefixOf (c :: rest) = true := by
      intro hstart
      obtain ⟨more, hmore⟩ := List.isPrefixOf_iff_prefix.mp hstart
      obtain ⟨hc, hrest⟩ := List.cons.inj hmore
      exact hclose more hc.symm (by rw [← hrest]; rfl)
    rw [find?, if_neg hstart, ih, Option.map_map, Option.map_map]
    apply Option.map_congr
    intro body hbody
    obtain ⟨inner, -, rfl, -, -⟩ := commentBody_starts hbody
    have hclosing : byteLength ['*', '/'] = 2 := rfl
    simp only [Function.comp_apply, byteLength_cons, byteLength_append] at *
    omega

theorem handleComment_eq (rest : List Char) :
    handleComment ('/' :: '*' :: rest) = counted (blockComment rest) := by
  have hslice : (sliceFrom 2 ('/' :: '*' :: rest) : Handled _) = .ok rest :=
    sliceFrom_append ['/', '*'] rest
  rw [handleComment, hslice, ok_bind, find?_eq_commentBody]
  cases hbody : commentBody rest with
  | none => simp [blockComment, hbody]
  | some body =>
    obtain ⟨inner, -, rfl, -, -⟩ := commentBody_starts hbody
    have hopening : byteLength ['/', '*'] = 2 := rfl
    have hclosing : byteLength ['*', '/'] = 2 := rfl
    simp [blockComment, hbody, Extent.ofReading, Reading.trivia] at *
    omega

/-- What the search for the closing quote does with its next character. -/
theorem quoteOffset_cons (escapes : Bool) (i : Nat) (c : Char) (rest : List Char) :
    quoteOffset escapes i (c :: rest) =
      if c = '"' then some i
      else if isLineEnd c then none
      else if c = '\\' ∧ escapes = true then
        match rest with
        | [] => none
        | d :: rest =>
          if isLineEnd d then none else quoteOffset escapes (i + c.utf8Size + d.utf8Size) rest
      else quoteOffset escapes (i + c.utf8Size) rest :=
  quoteOffset.eq_def ..

theorem quoteOffset_string (text : List Char) :
    ∀ i, quoteOffset true i text = (stringBody text).map fun body => i + byteLength body := by
  have hbackslash : isLineEnd '\\' = false := rfl
  -- by the rounds of the rule; the offset has counted the bytes of what was passed
  fun_induction stringBody text with
  | case1 =>
    intro i
    rfl
  | case2 more =>
    intro i
    simp [quoteOffset_cons]
  | case3 c rest hend =>
    intro i
    simp [quoteOffset_cons, hbackslash, hend]
  | case4 c rest hend ih =>
    intro i
    simp [quoteOffset_cons, hbackslash, hend, ih, Function.comp_def, Nat.add_assoc]
  | case5 c rest hquote hescape hend =>
    intro i
    simp [quoteOffset_cons, hend]
    exact hquote
  | case6 c rest hquote hescape hend ih =>
    intro i
    have hne : c ≠ '"' := hquote
    by_cases hc : c = '\\'
    · -- a backslash at the end of the text takes nothing with it
      cases rest with
      | nil => simp [quoteOffset_cons, hc, stringBody, hbackslash]
      | cons d rest => exact absurd rfl (hescape d rest hc)
    · simp [quoteOffset_cons, hne, hend, hc, ih, Function.comp_def, Nat.add_assoc]

theorem quoteOffset_rawString (text : List Char) :
    ∀ i, quoteOffset false i text = (rawStringBody text).map fun body => i + byteLength body := by
  fun_induction rawStringBody text with
  | case1 =>
    intro i
    rfl
  | case2 more =>
    intro i
    simp [quoteOffset_cons]
  | case3 c rest hquote hend =>
    intro i
    simp [quoteOffset_cons, hend]
    exact hquote
  | case4 c rest hquote hend ih =>
    intro i
    have hne : c ≠ '"' := hquote
    simp [quoteOffset_cons, hne, hend, ih, Function.comp_def, Nat.add_assoc]

/-- The value of a string lies between its opening mark and the quote that the search finds. -/
theorem handleString_eq (kind : TokenKind) {unterminated : LexicalCause} (opening : List Char)
    {rest : List Char} {body? : Option (List Char)} :
    quoteOffset (kind == .string) 0 rest = body?.map byteLength →
    (∀ body ∈ body?, ∃ more, rest = body ++ '"' :: more) →
    handleString kind unterminated (byteLength opening) (opening ++ rest) =
      counted (match body? with
        | some body => .ok (.enclosed kind opening body ['"'])
        | none => .error unterminated) := by
  intro hquote hbody
  simp only [handleString, sliceFrom_append, ok_bind, hquote]
  cases body? with
  | none => rfl
  | some body =>
    obtain ⟨more, rfl⟩ := hbody body rfl
    have hclosing : '"'.utf8Size = 1 := rfl
    simp [Extent.ofReading, Reading.enclosed, hclosing, Nat.add_assoc]

theorem handle_string (rest : List Char) :
    Pattern.string.handle ('"' :: rest) = counted (string rest) := by
  have hmatched : Pattern.string.matchedBytes ('"' :: rest) = byteLength ['"'] := by
    simp [Pattern.matchedBytes, Pattern.match?, Pattern.literal?]
  have hquote : quoteOffset true 0 rest = (stringBody rest).map byteLength := by
    simpa using quoteOffset_string rest 0
  simp only [Pattern.handle, hmatched]
  exact handleString_eq .string ['"'] hquote fun _ => stringBody_starts

theorem handle_rawString (rest : List Char) :
    Pattern.rawString.handle ('r' :: '"' :: rest) = counted (rawString rest) := by
  have hmatched : Pattern.rawString.matchedBytes ('r' :: '"' :: rest) = byteLength ['r', '"'] := by
    simp [Pattern.matchedBytes, Pattern.match?, Pattern.literal?]
  have hquote : quoteOffset false 0 rest = (rawStringBody rest).map byteLength := by
    simpa using quoteOffset_rawString rest 0
  simp only [Pattern.handle, hmatched]
  exact handleString_eq .rawString ['r', '"'] hquote fun _ => rawStringBody_starts

theorem ascii_of_isHexDigit {c : Char} (h : isHexDigit c = true) : c.toNat < 128 := by
  simp only [isHexDigit, Bool.or_eq_true, Bool.and_eq_true, decide_eq_true_eq, isDigit_iff,
    Char.le_def, UInt32.le_iff_toNat_le] at h
  have hf : 'f'.val.toNat = 102 := rfl
  have hF : 'F'.val.toNat = 70 := rfl
  have hc : c.val.toNat = c.toNat := rfl
  omega

theorem byteLength_takeWhile_hexDigit (text : List Char) :
    byteLength (text.takeWhile isHexDigit) = hexDigits text := by
  apply byteLength_of_ascii
  intro c hc
  exact ascii_of_isHexDigit (List.mem_takeWhile_imp hc)

theorem refuseUpTo_of_eq {text front back : List Char} {stop : Nat} (cause : String → LexicalCause)
    (htext : text = front ++ back) (hstop : stop = byteLength front) :
    (refuseUpTo cause stop text : Handled α) = refuse (cause (String.ofList front)) := by
  rw [htext, hstop, refuseUpTo_append]

/-- The bytes of a text that a rule reads. -/
def measured : Except LexicalCause (List Char) → Handled Nat
  | .ok text => .ok (byteLength text)
  | .error cause => refuse cause

@[simp] theorem measured_ok (text : List Char) : measured (.ok text) = .ok (byteLength text) := rfl

@[simp] theorem measured_error (cause : LexicalCause) :
    measured (.error cause) = refuse cause := rfl

/-- The digits that an escape counts are one byte long, whatever follows them. -/
theorem digitsEscape_eq (count : Nat) (cause : String → LexicalCause) {mark : Char}
    (hmark : mark.utf8Size = 1) (rest : List Char) :
    digitsEscape count cause ('\\' :: mark :: rest) =
      measured (if hexDigits rest = count then .ok ('\\' :: mark :: rest.takeWhile isHexDigit)
        else .error (cause (String.ofList ('\\' :: mark :: rest.takeWhile isHexDigit)))) := by
  have hbackslash : '\\'.utf8Size = 1 := rfl
  have hslice : (sliceFrom 2 ('\\' :: mark :: rest) : Handled _) = .ok rest :=
    sliceFrom_of_eq (show _ = ['\\', mark] ++ rest from rfl) (by simp [hmark, hbackslash])
  have htext : '\\' :: mark :: rest =
      ('\\' :: mark :: rest.takeWhile isHexDigit) ++ rest.dropWhile isHexDigit := by
    simp
  have hlength : 2 + hexDigits rest = byteLength ('\\' :: mark :: rest.takeWhile isHexDigit) := by
    simp only [byteLength_cons, hmark, byteLength_takeWhile_hexDigit, ← Nat.add_assoc]
    rfl
  have hrefuse := refuseUpTo_of_eq (α := Nat) cause htext hlength
  simp only [digitsEscape, hslice, ok_bind, hrefuse]
  by_cases hcount : hexDigits rest = count
  · simp only [hcount, if_true, measured_ok, ← hlength]
  · simp only [hcount, if_false, measured_error]

theorem drop_hexDigits (text : List Char) :
    text.drop (hexDigits text) = text.dropWhile isHexDigit := by
  have htext := List.takeWhile_append_dropWhile (p := isHexDigit) (l := text)
  calc
    text.drop (hexDigits text)
      = (text.takeWhile isHexDigit ++ text.dropWhile isHexDigit).drop (hexDigits text) := by
        rw [htext]
    _ = text.dropWhile isHexDigit := List.drop_left

theorem bracedEscape_eq (rest : List Char) :
    bracedEscape ('\\' :: 'u' :: '\x7b' :: rest) = measured (escape ('u' :: '\x7b' :: rest)) := by
  let opened := '\\' :: 'u' :: '\x7b' :: rest.takeWhile isHexDigit
  have hopened : 3 + hexDigits rest = byteLength opened := by
    simp only [opened, byteLength_cons, byteLength_takeWhile_hexDigit, ← Nat.add_assoc]
    rfl
  have htext : '\\' :: 'u' :: '\x7b' :: rest = opened ++ rest.dropWhile isHexDigit := by
    simp [opened]
  have hrest : (sliceFrom 3 ('\\' :: 'u' :: '\x7b' :: rest) : Handled _) = .ok rest :=
    sliceFrom_append ['\\', 'u', '\x7b'] rest
  have hbehind := sliceFrom_of_eq (ε := LexicalCause) htext hopened
  have hdigits : (rest.takeWhile isHexDigit).length = hexDigits rest := rfl
  simp only [bracedEscape, hrest, ok_bind, hbehind, escape, hdigits, drop_hexDigits]
  by_cases hclosed : (rest.dropWhile isHexDigit).head? = some '\x7d'
  · obtain ⟨more, hmore⟩ := List.head?_eq_some_iff.mp hclosed
    have hbraces : '\\' :: 'u' :: '\x7b' :: rest = (opened ++ ['\x7d']) ++ more := by
      simp [htext, hmore]
    have hstop : 3 + hexDigits rest + 1 = byteLength (opened ++ ['\x7d']) := by
      rw [hopened, byteLength_append]
      rfl
    have hrefuse := refuseUpTo_of_eq (α := Nat) .invalidBracedEscape hbraces hstop
    simp only [hclosed, beq_self_eq_true, Bool.toNat_true, hrefuse, and_true, if_true]
    by_cases hcount : 1 ≤ hexDigits rest ∧ hexDigits rest ≤ 6
    · have hfour : 4 + hexDigits rest = byteLength (opened ++ ['\x7d']) := by omega
      simp only [hcount, and_self, if_true, measured_ok, hfour, opened]
    · simp only [hcount, if_false, measured_error, opened]
  · have hfalse : ((rest.dropWhile isHexDigit).head? == some '\x7d') = false :=
      beq_eq_false_iff_ne.mpr hclosed
    have hrefuse := refuseUpTo_of_eq (α := Nat) .invalidBracedEscape htext hopened
    simp only [hclosed, hfalse, Bool.toNat_false, Nat.add_zero, hrefuse, Bool.false_eq_true,
      and_false, if_false, measured_error, opened]

theorem characterBytes_escape (rest : List Char) :
    characterBytes ('\\' :: rest) = measured (escape rest) := by
  cases rest with
  | nil => rfl
  | cons c rest =>
    by_cases hx : c = 'x'
    · subst hx
      exact digitsEscape_eq 2 .invalidHexEscape rfl rest
    by_cases hu : c = 'u'
    · subst hu
      have hslice : (sliceFrom 2 ('\\' :: 'u' :: rest) : Handled _) = .ok rest :=
        sliceFrom_append ['\\', 'u'] rest
      simp only [characterBytes, hslice, ok_bind]
      by_cases hbrace : rest.head? = some '\x7b'
      · obtain ⟨more, rfl⟩ := List.head?_eq_some_iff.mp hbrace
        exact bracedEscape_eq more
      · rw [if_neg hbrace, digitsEscape_eq 4 .invalidUnicodeEscape rfl rest, escape]
        · rfl
        · intro more hmore
          rw [hmore] at hbrace
          exact hbrace rfl
    · by_cases hend : isLineEnd c
      · simp [characterBytes, escape, hu, hend]
      · simp [characterBytes, escape, hu, hend]
        rfl

theorem characterBytes_eq (rest : List Char) :
    characterBytes rest = measured (characterBody rest) := by
  fun_cases characterBody rest with
  | case1 => rfl
  | case2 more => rfl
  | case3 rest => exact characterBytes_escape rest
  | case4 c more hquote hescape hend => simp [characterBytes, hend]
  | case5 c more hquote hescape hend => simp [characterBytes, hend]

theorem handleCharacter_eq (rest : List Char) :
    handleCharacter ('\'' :: rest) = counted (character rest) := by
  have hquote : '\''.utf8Size = 1 := rfl
  have hrest : (sliceFrom 1 ('\'' :: rest) : Handled _) = .ok rest := sliceFrom_append ['\''] rest
  simp only [handleCharacter, hrest, ok_bind, characterBytes_eq]
  cases hbody : characterBody rest with
  | error cause =>
    rw [measured_error, refuse_bind, character, hbody]
    rfl
  | ok body =>
    obtain ⟨more, rfl⟩ := characterBody_starts hbody
    have hcharacter : character (body ++ more) =
        if more.head? = some '\'' then .ok (.enclosed .character ['\''] body ['\''])
        else .error .unterminatedCharacter := by
      simp [character, hbody, Bind.bind, Except.bind]
    rw [measured_ok, ok_bind, sliceFrom_append, ok_bind, sliceTo_append, ok_bind, hcharacter]
    by_cases hclose : more.head? = some '\''
    · simp [hclose, Extent.ofReading, Reading.enclosed, hquote]
      omega
    · simp [hclose]

end FrontEnd.Lexical
