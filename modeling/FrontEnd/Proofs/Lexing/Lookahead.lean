import FrontEnd.Proofs.Lexing.Parts

/-! What was read stays readable when other text takes the place of the text behind it. The rules
look ahead, but only at one character, to see that what they read cannot go on; it cannot go on
either where nothing follows or, unless it is made of blanks, where a line ends. The same pattern is
the first to match, since a pattern that matches before the other text matches before the first one
as well. -/
namespace FrontEnd.Lexical

open Text

variable {c : Char} {rest rest' cs more more' : List Char} {reading : Reading} {pattern : Pattern}

/-- If fewer entries of a list are wanted, but still the first that was found, it is found again. -/
theorem find?_of_imp {α : Type} {p q : α → Bool} {l : List α} {a : α} (h : l.find? p = some a)
    (ha : q a = true) (himp : ∀ b ∈ l, q b = true → p b = true) : l.find? q = some a := by
  induction l with
  | nil => cases h
  | cons b l ih =>
    obtain ⟨hfirst, hrest⟩ := List.forall_mem_cons.mp himp
    by_cases hb : p b = true
    · rw [List.find?_cons_of_pos hb] at h
      cases h
      exact List.find?_cons_of_pos ha
    · rw [List.find?_cons_of_neg hb] at h
      rw [List.find?_cons_of_neg (mt hfirst hb)]
      exact ih h hrest

/-- Behind a reading that starts with `c`, the second text may stand in the place of the first one:
it starts with the same character, it is empty, or it starts with the end of a line and `c` is no
blank. -/
def Replaces (c : Char) (more more' : List Char) : Prop :=
  ∀ d ∈ more'.head?, more.head? = some d ∨ d = '\n' ∧ isBlank c = false

theorem Replaces.append (h : Replaces c more more') (cs : List Char) :
    Replaces c (cs ++ more) (cs ++ more') := by
  cases cs with
  | nil => exact h
  | cons d cs => exact fun e he => .inl he

theorem Replaces.head? {d : Char} (h : Replaces c rest rest') (hd : d ≠ '\n')
    (hhead : rest'.head? = some d) : rest.head? = some d :=
  (h d hhead).resolve_right fun hline => hd hline.1

/-- A mark that opens the second text opens the first one, if it has two characters at most and no
line feed. -/
theorem Replaces.isPrefixOf {start : List Char} (h : Replaces c rest rest')
    (hshort : start.length ≤ 2) (hline : '\n' ∉ start)
    (hstart : start.isPrefixOf (c :: rest') = true) : start.isPrefixOf (c :: rest) = true := by
  match start with
  | [] => rfl
  | [d] => simpa using hstart
  | [d, e] =>
    rw [List.isPrefixOf_iff_prefix, List.cons_prefix_cons] at hstart ⊢
    refine ⟨hstart.1, ?_⟩
    obtain ⟨tail, rfl⟩ := hstart.2
    have he : e ≠ '\n' := by
      rintro rfl
      exact hline (by simp)
    obtain ⟨tail', rfl⟩ := List.head?_eq_some_iff.mp (h.head? he rfl)
    exact ⟨tail', rfl⟩

theorem fixed_short {entry : String × TokenKind} (h : entry ∈ TokenKind.fixed) :
    entry.1.toList.length ≤ 2 ∧ '\n' ∉ entry.1.toList := by
  revert entry
  decide

theorem mark_short {radix : Radix} (h : radix ∈ Radix.marked) :
    radix.mark.toList.length ≤ 2 ∧ '\n' ∉ radix.mark.toList := by
  revert radix
  decide

/-- Where the text behind it is replaced, the rule of a pattern applies to the first text if it
applies to the second one. -/
theorem Pattern.Opens.of_replaces (hrest : Replaces c rest rest') (h : pattern.Opens c rest') :
    pattern.Opens c rest := by
  cases pattern with
  | lineComment => exact ⟨h.1, hrest.head? (by decide) h.2⟩
  | blockComment => exact ⟨h.1, hrest.head? (by decide) h.2⟩
  | rawString => exact ⟨h.1, hrest.head? (by decide) h.2⟩
  | number =>
    simp only [Opens, opensNumber, Bool.or_eq_true, Bool.and_eq_true, beq_iff_eq] at h ⊢
    rcases h with hdigit | ⟨hpoint, hdigit⟩
    · exact .inl hdigit
    · cases rest' with
      | nil => cases hdigit
      | cons d rest' =>
        have hd : d ≠ '\n' := by
          rintro rfl
          cases hdigit
        rw [hrest.head? hd rfl]
        exact .inr ⟨hpoint, hdigit⟩
  | operator =>
    obtain ⟨entry, hentry⟩ := Option.isSome_iff_exists.mp h
    have hmem := List.mem_of_find?_eq_some hentry
    have hstarts := List.find?_some hentry
    obtain ⟨hshort, hline⟩ := fixed_short hmem
    exact List.find?_isSome.mpr ⟨entry, hmem, hrest.isPrefixOf hshort hline hstarts⟩
  | blanks => exact h
  | string => exact h
  | character => exact h
  | word => exact h

section

variable {p : Char → Bool} {run : List Char}

/-- A run that could not go on before the first text cannot go on before the second one, if it
holds no line feeds or is made of blanks. -/
theorem takeWhile_replace (h : (run ++ more).takeWhile p = run) (hmore : Replaces c more more')
    (hline : p '\n' = false ∨ isBlank c = true) : (run ++ more').takeWhile p = run := by
  induction run with
  | nil =>
    cases more' with
    | nil => rfl
    | cons d more' =>
      -- what follows the run ended it before, or is a line feed that was put there
      have hd : ¬ p d = true := by
        intro hd
        rcases hmore d rfl with hhead | ⟨rfl, hblank⟩
        · obtain ⟨tail, rfl⟩ := List.head?_eq_some_iff.mp hhead
          simp [hd] at h
        · simp [hd, hblank] at hline
      simp [hd]
  | cons d run ih =>
    rw [List.cons_append, List.takeWhile_cons] at h ⊢
    by_cases hd : p d = true
    · rw [if_pos hd] at h ⊢
      rw [ih (List.cons.inj h).2]
    · rw [if_neg hd] at h
      cases h

/-- The rest of a comment is no part of it. -/
theorem commentBody_append {text body : List Char} (h : commentBody text = some body)
    (more : List Char) : commentBody (body ++ more) = some body := by
  fun_induction commentBody text generalizing body with
  | case1 => cases h
  | case2 tail =>
    cases h
    rfl
  | case3 c rest hclose ih =>
    obtain ⟨body', hbody, rfl⟩ := Option.map_eq_some_iff.mp h
    obtain ⟨inner, tail, -, hrest, -⟩ := commentBody_starts hbody
    have hopen : ∀ further, c = '*' → body' ++ more = '/' :: further → False := by
      intro further hstar hslash
      -- what follows the star in the comment follows it in the text
      cases body' with
      | nil => exact absurd (commentBody_starts hbody) (by simp)
      | cons d body' =>
        rw [List.cons_append, List.cons.injEq] at hslash
        rw [List.cons_append, hslash.1] at hrest
        exact hclose _ hstar hrest
    rw [List.cons_append, commentBody.eq_3 _ _ hopen, ih hbody]
    rfl

variable {radix : Radix} {underscored : Bool}

theorem ne_underscore_of_stops {d : Char} (h : (isBlank d || isPunctuation d) = true) :
    d ≠ '_' := by
  rintro rfl
  exact absurd h (by decide)

theorem radixRun_halts (h : radixRun radix underscored (run ++ more) = (run, none))
    (hmore : Replaces c more more') (underscored' : Bool) :
    radixRun radix underscored' more' = ([], none) := by
  induction run generalizing underscored with
  | nil =>
    cases more' with
    | nil => rfl
    | cons d more' =>
      rcases hmore d rfl with hhead | ⟨rfl, -⟩
      swap
      · exact radixRun_of_ends radix underscored' (ends_cons (by decide))
      -- the same character ended the run in front of the first text
      obtain ⟨tail, rfl⟩ := List.head?_eq_some_iff.mp hhead
      rw [List.nil_append, radixRun] at h
      by_cases hdigit : radix.isDigit d = true
      · rw [if_pos hdigit] at h
        cases (Prod.mk.inj h).1
      rw [if_neg hdigit] at h
      by_cases hunder : d = '_' ∧ underscored = false
      · rw [if_pos hunder] at h
        cases (Prod.mk.inj h).1
      rw [if_neg hunder] at h
      by_cases hstop : (isBlank d || isPunctuation d) = true
      · have hne : ¬ (d = '_' ∧ underscored' = false) := fun hd =>
          ne_underscore_of_stops hstop hd.1
        rw [radixRun, if_neg hdigit, if_neg hne, if_pos hstop]
      · rw [if_neg hstop] at h
        cases (Prod.mk.inj h).2
  | cons d run ih =>
    -- the first character was passed, so the run goes on behind it
    rw [List.cons_append, radixRun] at h
    by_cases hdigit : radix.isDigit d = true
    · rw [if_pos hdigit] at h
      obtain ⟨hrun, hoffender⟩ := Prod.mk.inj h
      exact ih (Prod.ext (List.cons.inj hrun).2 hoffender)
    rw [if_neg hdigit] at h
    by_cases hunder : d = '_' ∧ underscored = false
    · rw [if_pos hunder] at h
      obtain ⟨hrun, hoffender⟩ := Prod.mk.inj h
      exact ih (Prod.ext (List.cons.inj hrun).2 hoffender)
    rw [if_neg hunder] at h
    by_cases hstop : (isBlank d || isPunctuation d) = true
    · rw [if_pos hstop] at h
      cases (Prod.mk.inj h).1
    · rw [if_neg hstop] at h
      cases (Prod.mk.inj h).1

theorem decimalRun_halts {isFloat hasExponent ending : Bool} {text : List Char}
    (h : decimalRun isFloat hasExponent underscored text = (run, .complete ending))
    (htext : text = run ++ more) (hmore : Replaces c more more')
    (isFloat' hasExponent' underscored' : Bool) :
    decimalRun isFloat' hasExponent' underscored' more' = ([], .complete isFloat') := by
  -- only the last round (`case12`) met what is behind the literal; those before it lead there
  fun_induction decimalRun isFloat hasExponent underscored text generalizing run with
  | case1 =>
    obtain ⟨-, rfl⟩ := List.append_eq_nil_iff.mp htext.symm
    refine decimalRun_of_ends _ _ _ fun d hd => ?_
    obtain ⟨rfl, -⟩ := (hmore d hd).resolve_left (by simp)
    decide
  | case2 _ _ _ c rest _ run' _ hrun ih =>
    obtain ⟨rfl, rfl⟩ := Prod.mk.inj h
    exact ih hrun (List.cons.inj htext).2
  | case4 _ _ _ rest _ run' _ hrun _ ih =>
    obtain ⟨rfl, rfl⟩ := Prod.mk.inj h
    exact ih hrun (List.cons.inj htext).2
  | case6 _ _ _ rest _ run' _ hrun _ _ ih =>
    obtain ⟨rfl, rfl⟩ := Prod.mk.inj h
    exact ih hrun (List.cons.inj htext).2
  | case8 _ _ _ c rest _ _ _ _ _ _ run' _ hrun ih =>
    obtain ⟨rfl, rfl⟩ := Prod.mk.inj h
    exact ih hrun (List.cons.inj htext).2
  | case9 _ _ _ c _ _ _ _ _ sign digit further _ run' _ hrun _ ih =>
    obtain ⟨rfl, rfl⟩ := Prod.mk.inj h
    simp only [List.cons_append, List.cons.injEq, true_and] at htext
    exact ih hrun htext
  | case12 isFloat hasExponent underscored c rest hdigit hunder hpoint hexp =>
    obtain ⟨rfl, -⟩ := Prod.mk.inj h
    cases more' with
    | nil => rfl
    | cons d more' =>
      rcases hmore d rfl with hhead | ⟨rfl, -⟩
      swap
      · exact decimalRun_of_ends _ _ _ (ends_cons (by decide))
      obtain ⟨tail, rfl⟩ := List.head?_eq_some_iff.mp hhead
      obtain ⟨rfl, -⟩ := List.cons.inj htext
      rw [decimalRun_cons, if_neg hdigit, if_neg hunder, if_neg hpoint, if_neg hexp]
  | _ => cases (Prod.mk.inj h).2

end

/-- A literal with a mark is the mark and the run of digits behind it, and both stay. -/
theorem radixLiteral_replace {radix : Radix} (hmem : radix ∈ Radix.marked)
    (h : radixLiteral radix ((c :: (cs ++ more)).drop radix.mark.length) = .ok reading)
    (htext : reading.text = c :: cs) (hmore : Replaces c more more') :
    opensNumber c (cs ++ more') = true ∧ number (c :: (cs ++ more')) = .ok reading := by
  unfold radixLiteral at h
  cases hrun : radixRun radix false ((c :: (cs ++ more)).drop radix.mark.length) with
  | mk run offender =>
    rw [hrun] at h
    cases offender with
    | some d => cases h
    | none =>
      simp only at h
      split at h
      · rename_i hlast
        cases h
        have hcs : c :: cs = radix.mark.toList ++ run := htext.symm
        have hdrop : (c :: (cs ++ more)).drop radix.mark.length = run ++ more := by
          rw [← List.cons_append, hcs, List.append_assoc, ← String.length_toList, List.drop_left]
        rw [hdrop] at hrun
        refine ⟨?_, ?_⟩
        · obtain ⟨m, hm, -⟩ := mark_eq hmem
          rw [hm] at hcs
          obtain ⟨rfl, -⟩ := List.cons.inj hcs
          rfl
        · rw [← List.cons_append, hcs, List.append_assoc, number_mark hmem, radixLiteral,
            radixRun_append hrun (radixRun_halts hrun hmore)]
          simp only [hlast, if_true]
      · cases h

/-- What a decimal literal starts with is part of it. -/
theorem decimalLiteral_replace (hopens : opensNumber c (cs ++ more) = true)
    (h : decimalLiteral (c :: (cs ++ more)) = .ok reading) (htext : reading.text = c :: cs)
    (hmore : Replaces c more more') :
    opensNumber c (cs ++ more') = true ∧ decimalLiteral (c :: (cs ++ more')) = .ok reading := by
  unfold decimalLiteral at h
  cases hrun : decimalRun false false false (c :: (cs ++ more)) with
  | mk run ending =>
    rw [hrun] at h
    cases ending with
    | complete isFloat =>
      simp only at h
      split at h
      · cases h
      · rename_i hlast
        cases h
        obtain ⟨cs', hcs, hopens'⟩ := decimalRun_opens hopens hrun
        obtain rfl : run = c :: cs := htext
        obtain rfl : cs = cs' := (List.cons.inj hcs).2
        have hagain := decimalRun_append hrun (decimalRun_halts hrun rfl hmore)
        rw [List.cons_append] at hagain
        rw [decimalLiteral, hagain]
        simp only [if_neg hlast, and_true]
        exact hopens' more'
    | badUnderscore => cases h
    | badFloat => cases h
    | badExponent => cases h

theorem number_replace (hopens : opensNumber c (cs ++ more) = true)
    (h : number (c :: (cs ++ more)) = .ok reading) (htext : reading.text = c :: cs)
    (hmore : Replaces c more more') :
    opensNumber c (cs ++ more') = true ∧ number (c :: (cs ++ more')) = .ok reading := by
  unfold number at h
  split at h
  · rename_i radix hradix
    exact radixLiteral_replace (List.mem_of_find?_eq_some hradix) h htext hmore
  · rename_i hnone
    -- no mark appears where the text is replaced
    have hnone' : (Radix.marked.find? fun radix =>
        radix.mark.toList.isPrefixOf (c :: (cs ++ more'))) = none := by
      rw [List.find?_eq_none] at hnone ⊢
      intro radix hradix hmark
      obtain ⟨hshort, hline⟩ := mark_short hradix
      exact hnone radix hradix ((hmore.append cs).isPrefixOf hshort hline hmark)
    rw [number, hnone']
    exact decimalLiteral_replace hopens h htext hmore

theorem lineComment_replace (hnext : (cs ++ more).head? = some '/')
    (htext : (lineComment ('/' :: (cs ++ more))).text = '/' :: cs)
    (hmore : Replaces '/' more more') :
    (cs ++ more').head? = some '/' ∧
      lineComment ('/' :: (cs ++ more')) = lineComment ('/' :: (cs ++ more)) := by
  have hrun : ('/' :: cs ++ more).takeWhile (· != '\n') = '/' :: cs := htext
  refine ⟨?_, ?_⟩
  · cases cs with
    | nil =>
      -- the second slash would belong to the comment
      obtain ⟨rest, hrest⟩ := List.head?_eq_some_iff.mp hnext
      rw [List.nil_append] at hrest
      simp [hrest] at hrun
    | cons d cs => exact hnext
  · have hagain := takeWhile_replace hrun hmore (.inl rfl)
    rw [List.cons_append] at hrun hagain
    rw [lineComment, lineComment, hrun, hagain]

theorem blockComment_replace (h : blockComment (cs ++ more).tail = .ok reading)
    (htext : reading.text = '/' :: cs) (more' : List Char) :
    (cs ++ more').head? = some '*' ∧ blockComment (cs ++ more').tail = .ok reading := by
  unfold blockComment at h
  split at h
  · rename_i body hbody
    cases h
    obtain rfl : '*' :: body = cs := by simpa [Reading.trivia] using htext
    simp [blockComment, commentBody_append hbody]
  · cases h

theorem string_replace (h : string (cs ++ more) = .ok reading) (htext : reading.text = '"' :: cs)
    (more' : List Char) : string (cs ++ more') = .ok reading := by
  unfold string at h ⊢
  split at h
  · rename_i body hbody
    cases h
    obtain rfl : body ++ ['"'] = cs := by simpa [Reading.enclosed] using htext
    rw [List.append_assoc, List.singleton_append, stringBody_local hbody]
  · cases h

theorem rawString_replace (h : rawString (cs ++ more).tail = .ok reading)
    (htext : reading.text = 'r' :: cs) (more' : List Char) :
    (cs ++ more').head? = some '"' ∧ rawString (cs ++ more').tail = .ok reading := by
  unfold rawString at h
  split at h
  · rename_i body hbody
    cases h
    obtain rfl : '"' :: (body ++ ['"']) = cs := by simpa [Reading.enclosed] using htext
    simp [rawString, rawStringBody_local hbody]
  · cases h

theorem character_replace (h : character (cs ++ more) = .ok reading)
    (htext : reading.text = '\'' :: cs) (more' : List Char) :
    character (cs ++ more') = .ok reading := by
  unfold character at h ⊢
  cases hbody : characterBody (cs ++ more) with
  | error cause =>
    rw [hbody] at h
    cases h
  | ok body =>
    simp only [hbody, bind, Except.bind] at h
    split at h
    · cases h
      obtain rfl : body ++ ['\''] = cs := by simpa [Reading.enclosed] using htext
      rw [List.append_assoc, List.singleton_append, characterBody_local hbody]
      simp [bind, Except.bind]
    · cases h

theorem fixedToken_replace (h : fixedToken c (cs ++ more) = .ok reading)
    (htext : reading.text = c :: cs) (hmore : Replaces c more more') :
    (fixedToken? (c :: (cs ++ more'))).isSome = true ∧
      fixedToken c (cs ++ more') = .ok reading := by
  unfold fixedToken at h ⊢
  split at h
  · rename_i text kind hfixed
    cases h
    have hstarts : text.toList.isPrefixOf (c :: (cs ++ more')) = true := by
      have hcs : text.toList = c :: cs := htext
      rw [hcs]
      exact List.isPrefixOf_iff_prefix.mpr ⟨more', rfl⟩
    have hagain : fixedToken? (c :: (cs ++ more')) = some (text, kind) := by
      refine find?_of_imp hfixed hstarts fun entry hentry hagain => ?_
      obtain ⟨hshort, hline⟩ := fixed_short hentry
      exact (hmore.append cs).isPrefixOf hshort hline hagain
    simp [hagain]
  · cases h

/-- A rule that has read the start of a text applies and reads the same before other text behind
that. -/
theorem Pattern.rule_replace (hopens : pattern.Opens c (cs ++ more))
    (h : pattern.rule c (cs ++ more) = .ok reading) (htext : reading.text = c :: cs)
    (hmore : Replaces c more more') :
    pattern.Opens c (cs ++ more') ∧ pattern.rule c (cs ++ more') = .ok reading := by
  cases pattern with
  | blanks =>
    cases h
    have hrun : (c :: cs ++ more').takeWhile isBlank = c :: cs :=
      takeWhile_replace htext hmore (.inr hopens)
    rw [List.cons_append] at hrun
    exact ⟨hopens, congrArg (Except.ok ∘ Reading.trivia) (hrun.trans htext.symm)⟩
  | lineComment =>
    cases h
    obtain ⟨rfl, hnext⟩ := hopens
    obtain ⟨hnext', hsame⟩ := lineComment_replace hnext htext hmore
    exact ⟨⟨rfl, hnext'⟩, congrArg Except.ok hsame⟩
  | blockComment =>
    obtain ⟨rfl, -⟩ := hopens
    obtain ⟨hnext', hsame⟩ := blockComment_replace h htext more'
    exact ⟨⟨rfl, hnext'⟩, hsame⟩
  | string =>
    obtain rfl := hopens
    exact ⟨rfl, string_replace h htext more'⟩
  | rawString =>
    obtain ⟨rfl, -⟩ := hopens
    obtain ⟨hnext', hsame⟩ := rawString_replace h htext more'
    exact ⟨⟨rfl, hnext'⟩, hsame⟩
  | character =>
    obtain rfl := hopens
    exact ⟨rfl, character_replace h htext more'⟩
  | number => exact number_replace hopens h htext hmore
  | word =>
    cases h
    have hrun : (c :: cs ++ more').takeWhile continuesWord = c :: cs :=
      takeWhile_replace htext hmore (.inl (by decide))
    rw [List.cons_append] at hrun
    exact ⟨hopens, congrArg (fun text => Except.ok (Reading.plain .word text none))
      (hrun.trans htext.symm)⟩
  | operator => exact fixedToken_replace h htext hmore

/-- What is read at the start of a text is read before other text behind it. -/
theorem read_replace (h : read c (cs ++ more) = .ok reading) (htext : reading.text = c :: cs)
    (hmore : Replaces c more more') : read c (cs ++ more') = .ok reading := by
  rw [read_eq_rule] at h ⊢
  cases hfirst : Pattern.all.find? fun pattern => (pattern.match? (c :: (cs ++ more))).isSome with
  | none =>
    rw [hfirst] at h
    cases h
  | some pattern =>
    rw [hfirst] at h
    have hmatch := List.find?_some hfirst
    rw [pattern.isSome_match?_cons] at hmatch
    obtain ⟨hopens, hrule⟩ := Pattern.rule_replace hmatch h htext hmore
    rw [find?_of_imp hfirst ((pattern.isSome_match?_cons c _).mpr hopens)]
    · exact hrule
    · intro other _ hother
      rw [other.isSome_match?_cons] at hother ⊢
      exact hother.of_replaces (hmore.append cs)

/-- What is read at the start of a text is read when the text behind it is cut off. -/
theorem read_truncate (h : read c (cs ++ more) = .ok reading) (htext : reading.text = c :: cs)
    (hmore : more' <+: more) : read c (cs ++ more') = .ok reading := by
  refine read_replace h htext fun d hd => .inl ?_
  obtain ⟨tail, rfl⟩ := hmore
  obtain ⟨more', rfl⟩ := List.head?_eq_some_iff.mp hd
  rfl

end FrontEnd.Lexical
