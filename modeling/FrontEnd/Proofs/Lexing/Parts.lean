import FrontEnd.Proofs.Lexing.Reading

/-! What a lexical rule reads is the start of its text. A lexeme is read from exactly the characters
that write it, and what stands for no lexeme is a run of blanks or a whole comment. -/
namespace FrontEnd.Lexical

open Text

variable {text body : List Char}

/-- A comment runs to the first closing mark and ends with it. -/
theorem commentBody_starts (h : commentBody text = some body) :
    ∃ inner more, body = inner ++ ['*', '/'] ∧ text = body ++ more ∧
      ¬ ['*', '/'] <:+: inner ++ ['*'] := by
  fun_induction commentBody text generalizing body with
  | case1 => cases h
  | case2 more =>
    cases h
    exact ⟨[], more, rfl, rfl, by decide⟩
  | case3 c rest hclose ih =>
    obtain ⟨body', hbody, rfl⟩ := Option.map_eq_some_iff.mp h
    obtain ⟨inner, more, rfl, rfl, hinner⟩ := ih hbody
    refine ⟨c :: inner, more, rfl, rfl, ?_⟩
    rw [List.cons_append, List.infix_cons_iff]
    rintro (hfirst | hlater)
    · -- the closing mark would stand at the start, where the comment goes on
      cases inner with
      | nil => simp at hfirst
      | cons d inner =>
        simp only [List.cons_append, List.cons_prefix_cons, List.nil_prefix, and_true] at hfirst
        exact hclose _ hfirst.1.symm (by rw [← hfirst.2]; rfl)
    · exact hinner hlater

theorem radixRun_starts {radix : Radix} {underscored : Bool} {run : List Char}
    {offender : Option Char} (h : radixRun radix underscored text = (run, offender)) :
    run <+: text := by
  fun_induction radixRun radix underscored text generalizing run with
  | case2 underscored c rest hdigit run' offender' hrun ih =>
    obtain ⟨rfl, rfl⟩ := Prod.mk.inj h
    exact List.prefix_cons_inj c |>.mpr (ih hrun)
  | case3 underscored c rest hdigit hunder run' offender' hrun ih =>
    obtain ⟨rfl, rfl⟩ := Prod.mk.inj h
    exact List.prefix_cons_inj c |>.mpr (ih hrun)
  | _ =>
    obtain ⟨rfl, rfl⟩ := Prod.mk.inj h
    simp

theorem fixedToken?_starts {entry : String × TokenKind} (h : fixedToken? text = some entry) :
    entry.1.toList <+: text := by
  have hstarts := List.find?_some h
  exact List.isPrefixOf_iff_prefix.mp hstarts

variable {c : Char} {rest : List Char} {reading : Reading} {l : Lexeme}

/-- A reading takes at least one character, and what it takes is the start of the text. -/
theorem Rule.starts (h : Rule c rest reading) :
    ∃ cs more, reading.text = c :: cs ∧ rest = cs ++ more := by
  -- it is enough to find the reading at the start of the text and not empty
  suffices hstarts : reading.text ≠ [] ∧ reading.text <+: c :: rest by
    obtain ⟨hne, more, hmore⟩ := hstarts
    obtain ⟨d, cs, htext⟩ := List.exists_cons_of_ne_nil hne
    rw [htext, List.cons_append] at hmore
    obtain ⟨rfl, rfl⟩ := List.cons.inj hmore
    exact ⟨cs, more, htext, rfl⟩
  cases h with
  | blanks hblank =>
    refine ⟨?_, List.takeWhile_prefix _⟩
    simp [Lexical.blanks, Reading.trivia, hblank]
  | lineComment hslash hnext =>
    refine ⟨?_, List.takeWhile_prefix _⟩
    subst hslash
    simp [Lexical.lineComment, Reading.trivia]
  | blockComment body hslash hnext hbody =>
    obtain ⟨rest', rfl⟩ := List.head?_eq_some_iff.mp hnext
    obtain ⟨inner, more, -, htext, -⟩ := commentBody_starts hbody
    refine ⟨by simp [Reading.trivia], more, ?_⟩
    rw [hslash, show rest' = body ++ more from htext]
    rfl
  | string body hquote hbody =>
    obtain ⟨more, rfl⟩ := stringBody_starts hbody
    exact ⟨by simp [Reading.enclosed], more, by simp [Reading.enclosed, hquote]⟩
  | rawString body hraw hnext hbody =>
    obtain ⟨rest', rfl⟩ := List.head?_eq_some_iff.mp hnext
    obtain ⟨more, htext⟩ := rawStringBody_starts hbody
    refine ⟨by simp [Reading.enclosed], more, ?_⟩
    rw [hraw, show rest' = body ++ '"' :: more from htext]
    simp [Reading.enclosed]
  | character body hquote hbody hclose =>
    obtain ⟨tail, rfl⟩ := characterBody_starts hbody
    rw [List.drop_left] at hclose
    obtain ⟨more, rfl⟩ := List.head?_eq_some_iff.mp hclose
    exact ⟨by simp [Reading.enclosed], more, by simp [Reading.enclosed, hquote]⟩
  | radix radix run hradix hmark hrun _ =>
    obtain ⟨m, hm, -⟩ := mark_eq hradix
    refine ⟨by simp [Reading.plain, hm], ?_⟩
    obtain ⟨tail, htail⟩ := List.isPrefixOf_iff_prefix.mp hmark
    have hdrop : (c :: rest).drop radix.mark.length = tail := by
      rw [← htail, ← String.length_toList, List.drop_left]
    rw [hdrop] at hrun
    rw [← htail]
    exact List.prefix_append_right_inj _ |>.mpr (radixRun_starts hrun)
  | decimal isFloat run hopens _ hrun _ =>
    obtain ⟨cs, rfl, -⟩ := decimalRun_opens hopens hrun
    exact ⟨by simp [Reading.plain], decimalRun_starts hrun⟩
  | word hopens =>
    refine ⟨?_, List.takeWhile_prefix _⟩
    simp [Lexical.word, Reading.plain, continuesWord_of_opensWord hopens]
  | fixed text kind hfixed =>
    have hne : ∀ entry ∈ TokenKind.fixed, entry.1.toList ≠ [] := by decide
    exact ⟨hne _ (List.mem_of_find?_eq_some hfixed), fixedToken?_starts hfixed⟩

/-- A lexeme is read from the characters that write it. -/
theorem text_of_read (h : read c rest = .ok ⟨text, some l⟩) : l.text.toList = text := by
  cases rule_of_read h with
  | string body _ _ => simp [Lexeme.text]
  | rawString body _ _ _ => simp [Lexeme.text]
  | character body _ _ _ => simp [Lexeme.text]
  | radix radix run _ _ _ _ => simp [Lexeme.text]
  | decimal isFloat run _ _ _ _ => cases isFloat <;> simp [Lexeme.text]
  | word _ => simp [Lexeme.text]
  | fixed text kind hfixed =>
    have hall : ∀ entry ∈ TokenKind.fixed,
        (⟨entry.2, String.ofList entry.1.toList, none⟩ : Lexeme).text.toList = entry.1.toList := by
      decide
    exact hall _ (List.mem_of_find?_eq_some hfixed)

/-- A lexeme that is read ends no token list, and it has a radix if it is a number. -/
theorem kind_of_read (h : read c rest = .ok ⟨text, some l⟩) :
    l.kind ≠ .endMark ∧ (l.radix.isSome = true ↔ l.kind = .integer ∨ l.kind = .float) := by
  cases rule_of_read h with
  | string body _ _ => simp
  | rawString body _ _ _ => simp
  | character body _ _ _ => simp
  | radix radix run _ _ _ _ => simp
  | decimal isFloat run _ _ _ _ => cases isFloat <;> simp
  | word _ => simp
  | fixed text kind hfixed =>
    have hall : ∀ entry ∈ TokenKind.fixed, entry.2 ≠ .endMark ∧
        ((none : Option Radix).isSome = true ↔ entry.2 = .integer ∨ entry.2 = .float) := by
      decide
    exact hall _ (List.mem_of_find?_eq_some hfixed)

/-- What is read as a lexeme is read so before the text that follows it there. -/
theorem reads_of_read (h : read c rest = .ok ⟨text, some l⟩) :
    ∃ more, c :: rest = l.text.toList ++ more ∧ Reads l more := by
  obtain ⟨cs, more, htext, rfl⟩ := (rule_of_read h).starts
  obtain rfl : text = c :: cs := htext
  rw [text_of_read h]
  exact ⟨more, rfl, c, cs, text_of_read h, h⟩

/-- Text between lexemes, before the text that follows it: a run of blanks, a comment up to the end
of its line, or a comment up to the first mark that closes it. -/
inductive Separator : List Char → List Char → Prop where
  | blanks {run more : List Char} : run ≠ [] → (∀ c ∈ run, isBlank c = true) → Separator run more
  | line {body more : List Char} : '\n' ∉ body → (∀ c ∈ more.head?, c = '\n') →
      Separator ('/' :: '/' :: body) more
  | block {inner more : List Char} : ¬ ['*', '/'] <:+: inner ++ ['*'] →
      Separator ('/' :: '*' :: (inner ++ ['*', '/'])) more

/-- What is read as no lexeme separates lexemes. -/
theorem separator_of_read (h : read c rest = .ok (.trivia text)) :
    ∃ more, c :: rest = text ++ more ∧ Separator text more := by
  generalize hreading : Reading.trivia text = reading at h
  cases rule_of_read h with
  | blanks hblank =>
    obtain rfl : text = (c :: rest).takeWhile isBlank := congrArg Reading.text hreading
    refine ⟨(c :: rest).dropWhile isBlank, List.takeWhile_append_dropWhile.symm, .blanks ?_ ?_⟩
    · simp [hblank]
    · exact List.all_eq_true.mp List.all_takeWhile
  | lineComment hslash hnext =>
    obtain ⟨rest', rfl⟩ := List.head?_eq_some_iff.mp hnext
    obtain rfl : text = (c :: '/' :: rest').takeWhile (· != '\n') :=
      congrArg Reading.text hreading
    refine ⟨rest'.dropWhile (· != '\n'), ?_, ?_⟩
    · simp [hslash]
    · have htake : (c :: '/' :: rest').takeWhile (· != '\n') =
          '/' :: '/' :: rest'.takeWhile (· != '\n') := by
        simp [hslash]
      rw [htake]
      refine .line ?_ ?_
      · intro hmem
        have hne := List.all_eq_true.mp List.all_takeWhile _ hmem
        simp at hne
      · intro d hd
        have hstop := List.head?_dropWhile_not (· != '\n') rest'
        rw [Option.mem_def.mp hd] at hstop
        simpa using hstop
  | blockComment body hslash hnext hbody =>
    obtain rfl : text = '/' :: '*' :: body := congrArg Reading.text hreading
    obtain ⟨rest', rfl⟩ := List.head?_eq_some_iff.mp hnext
    obtain ⟨inner, more, rfl, htext, hinner⟩ := commentBody_starts hbody
    refine ⟨more, ?_, .block hinner⟩
    rw [hslash, show rest' = _ from htext]
    rfl
  | _ => cases hreading

end FrontEnd.Lexical
