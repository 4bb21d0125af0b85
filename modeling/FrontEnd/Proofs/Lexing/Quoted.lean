import FrontEnd.Lexical.Scan

/-! What stands between quotes. A string is a sequence of plain and escaped characters, a raw string
has neither quotes nor line ends, and a character literal has one of five forms. What is read has
the form, and the form is read up to the closing quote, whatever stands behind that. -/
namespace FrontEnd.Lexical

variable {c : Char} {text body rest : List Char}

theorem isLineEnd_iff : isLineEnd c = true ↔ c ∈ ['\n', '\r'] := by
  simp [isLineEnd]

/-- A plain character is none of two marks, and it ends no line. -/
theorem not_mem_marks_iff {a b : Char} :
    c ∉ [a, b, '\n', '\r'] ↔ c ≠ a ∧ c ≠ b ∧ ¬ isLineEnd c = true := by
  rw [isLineEnd_iff, List.mem_cons, List.mem_cons, not_or, not_or]

/-! ### Strings -/

/-- What stands for one character of a string. -/
inductive StringItem : List Char → Prop where
  | plain {c : Char} : c ∉ ['"', '\\', '\n', '\r'] → StringItem [c]
  | escaped {c : Char} : c ∉ ['\n', '\r'] → StringItem ['\\', c]

/-- The body of a string falls into items. -/
theorem exists_items_of_stringBody (h : stringBody text = some body) :
    ∃ items : List (List Char), body = items.flatten ∧ ∀ item ∈ items, StringItem item := by
  fun_induction stringBody text generalizing body with
  | case1 => cases h
  | case2 rest =>
    cases h
    exact ⟨[], rfl, by simp⟩
  | case3 c rest hend => cases h
  | case4 c rest hend ih =>
    obtain ⟨body', hbody, rfl⟩ := Option.map_eq_some_iff.mp h
    obtain ⟨items, rfl, hitems⟩ := ih hbody
    exact ⟨['\\', c] :: items, rfl,
      List.forall_mem_cons.mpr ⟨.escaped (mt isLineEnd_iff.mpr hend), hitems⟩⟩
  | case5 c rest hquote hescape hend => cases h
  | case6 c rest hquote hescape hend ih =>
    obtain ⟨body', hbody, rfl⟩ := Option.map_eq_some_iff.mp h
    obtain ⟨items, rfl, hitems⟩ := ih hbody
    -- a backslash in front of a character is an escape, and in front of the end no quote follows
    have hbackslash : c ≠ '\\' := by
      rintro rfl
      cases rest with
      | nil => cases hbody
      | cons d rest => exact hescape d rest rfl rfl
    have hplain := not_mem_marks_iff.mpr ⟨hquote, hbackslash, hend⟩
    exact ⟨[c] :: items, rfl, List.forall_mem_cons.mpr ⟨.plain hplain, hitems⟩⟩

/-- Items are read up to the closing quote. -/
theorem stringBody_flatten {items : List (List Char)} (h : ∀ item ∈ items, StringItem item)
    (more : List Char) : stringBody (items.flatten ++ '"' :: more) = some items.flatten := by
  induction items with
  | nil => rfl
  | cons item items ih =>
    have hrest := ih fun i hi => h i (List.mem_cons_of_mem _ hi)
    cases h item List.mem_cons_self with
    | @plain c hc =>
      obtain ⟨hquote, hbackslash, hend⟩ := not_mem_marks_iff.mp hc
      rw [List.flatten_cons, List.singleton_append, List.cons_append,
        stringBody.eq_4 _ _ hquote fun d rest' hc => absurd hc hbackslash, if_neg hend, hrest]
      rfl
    | @escaped c hc =>
      have hend : ¬ isLineEnd c = true := mt isLineEnd_iff.mp hc
      simp [stringBody, hend, hrest]

theorem stringBody_starts (h : stringBody text = some body) :
    ∃ more, text = body ++ '"' :: more := by
  fun_induction stringBody text generalizing body with
  | case1 => cases h
  | case2 more =>
    cases h
    exact ⟨more, rfl⟩
  | case3 c rest hend => cases h
  | case4 c rest hend ih =>
    obtain ⟨body', hbody, rfl⟩ := Option.map_eq_some_iff.mp h
    obtain ⟨more, rfl⟩ := ih hbody
    exact ⟨more, rfl⟩
  | case5 c rest hquote hescape hend => cases h
  | case6 c rest hquote hescape hend ih =>
    obtain ⟨body', hbody, rfl⟩ := Option.map_eq_some_iff.mp h
    obtain ⟨more, rfl⟩ := ih hbody
    exact ⟨more, rfl⟩

/-- The body of a string ends at its quote, whatever follows. -/
theorem stringBody_local (h : stringBody text = some body) (more : List Char) :
    stringBody (body ++ '"' :: more) = some body := by
  obtain ⟨items, rfl, hitems⟩ := exists_items_of_stringBody h
  exact stringBody_flatten hitems more

/-! ### Raw strings -/

/-- A raw string ends at its first quote, and no line ends before. -/
theorem rawStringBody_eq_some_iff (rest : List Char) :
    rawStringBody (body ++ '"' :: rest) = some body ↔ ∀ c ∈ body, c ∉ ['"', '\n', '\r'] := by
  induction body with
  | nil => simp [rawStringBody]
  | cons c body ih =>
    rw [List.forall_mem_cons, ← ih, List.cons_append, List.mem_cons, ← isLineEnd_iff]
    by_cases hquote : c = '"'
    · simp [hquote, rawStringBody]
    · rw [rawStringBody.eq_3 _ _ hquote]
      by_cases hend : isLineEnd c = true
      · simp [hend]
      · simp [hquote, hend]

theorem rawStringBody_starts (h : rawStringBody text = some body) :
    ∃ more, text = body ++ '"' :: more := by
  fun_induction rawStringBody text generalizing body with
  | case1 => cases h
  | case2 more =>
    cases h
    exact ⟨more, rfl⟩
  | case3 c rest hquote hend => cases h
  | case4 c rest hquote hend ih =>
    obtain ⟨body', hbody, rfl⟩ := Option.map_eq_some_iff.mp h
    obtain ⟨more, rfl⟩ := ih hbody
    exact ⟨more, rfl⟩

theorem rawStringBody_local (h : rawStringBody text = some body) (more : List Char) :
    rawStringBody (body ++ '"' :: more) = some body := by
  obtain ⟨more', rfl⟩ := rawStringBody_starts h
  exact (rawStringBody_eq_some_iff more).mpr ((rawStringBody_eq_some_iff more').mp h)

/-! ### Characters -/

/-- What stands between the quotes of a character literal. -/
inductive CharacterForm : List Char → Prop where
  | plain {c : Char} : c ∉ ['\'', '\\', '\n', '\r'] → CharacterForm [c]
  | escaped {c : Char} : c ∉ ['x', 'u', '\n', '\r'] → CharacterForm ['\\', c]
  | hex {digits : List Char} : digits.length = 2 → (∀ d ∈ digits, isHexDigit d = true) →
      CharacterForm ('\\' :: 'x' :: digits)
  | unicode {digits : List Char} : digits.length = 4 → (∀ d ∈ digits, isHexDigit d = true) →
      CharacterForm ('\\' :: 'u' :: digits)
  | braced {digits : List Char} : 1 ≤ digits.length → digits.length ≤ 6 →
      (∀ d ∈ digits, isHexDigit d = true) →
      CharacterForm ('\\' :: 'u' :: '\x7b' :: (digits ++ ['\x7d']))

theorem takeWhile_append_of_ends {p : Char → Bool} {run more : List Char}
    (hrun : ∀ c ∈ run, p c = true) (hmore : ∀ c ∈ more.head?, p c = false) :
    (run ++ more).takeWhile p = run := by
  rw [List.takeWhile_append_of_pos hrun]
  cases more with
  | nil => simp
  | cons c more => simp [hmore c rfl]

/-- An escape that is read has one of the forms. -/
theorem characterForm_of_escape (h : escape text = .ok body) : CharacterForm body := by
  have hdigits : ∀ rest : List Char, ∀ d ∈ rest.takeWhile isHexDigit, isHexDigit d = true :=
    fun rest => List.all_eq_true.mp List.all_takeWhile
  unfold escape at h
  split at h
  · cases h
  · dsimp only at h
    split at h
    · rename_i hlen
      cases h
      exact .hex hlen (hdigits _)
    · cases h
  · dsimp only at h
    split at h
    · split at h
      · rename_i hlen
        cases h
        exact .braced hlen.1 hlen.2 (hdigits _)
      · cases h
    · cases h
  · dsimp only at h
    split at h
    · rename_i hlen
      cases h
      exact .unicode hlen (hdigits _)
    · cases h
  · rename_i c rest hx hbrace hu
    split at h
    · cases h
    · rename_i hend
      cases h
      exact .escaped (not_mem_marks_iff.mpr ⟨hx, hu, hend⟩)

theorem characterForm_of_characterBody (h : characterBody text = .ok body) :
    CharacterForm body := by
  unfold characterBody at h
  split at h
  · cases h
  · cases h
  · exact characterForm_of_escape h
  · rename_i c rest hquote hbackslash
    split at h
    · cases h
    · rename_i hend
      cases h
      exact .plain (not_mem_marks_iff.mpr ⟨hquote, hbackslash, hend⟩)

theorem takeWhile_hexDigit_append {digits : List Char} (h : ∀ d ∈ digits, isHexDigit d = true)
    (hc : isHexDigit c = false) (more : List Char) :
    (digits ++ c :: more).takeWhile isHexDigit = digits :=
  takeWhile_append_of_ends h (by rintro _ ⟨⟩; exact hc)

/-- Every form is read up to the closing quote. -/
theorem CharacterForm.read_body (h : CharacterForm body) (more : List Char) :
    characterBody (body ++ '\'' :: more) = .ok body := by
  cases h with
  | @plain c hc =>
    obtain ⟨hquote, hbackslash, hend⟩ := not_mem_marks_iff.mp hc
    rw [List.singleton_append, characterBody.eq_4 _ _ hquote hbackslash, if_neg hend]
  | @escaped c hc =>
    obtain ⟨hx, hu, hend⟩ := not_mem_marks_iff.mp hc
    rw [List.cons_append, characterBody, List.singleton_append,
      escape.eq_5 _ _ hx (fun _ hc => absurd hc hu) hu, if_neg hend]
  | hex hlength hdigits =>
    rw [List.cons_append, List.cons_append, characterBody, escape,
      takeWhile_hexDigit_append hdigits (by decide)]
    exact if_pos hlength
  | @unicode digits hlength hdigits =>
    -- a brace is no digit, so the escape is not the one in braces
    have hbrace : ∀ rest, digits ++ '\'' :: more = '\x7b' :: rest → False := by
      intro rest heq
      cases digits with
      | nil => cases hlength
      | cons d digits =>
        have hd := hdigits d List.mem_cons_self
        rw [(List.cons.inj heq).1] at hd
        exact absurd hd (by decide)
    rw [List.cons_append, List.cons_append, characterBody, escape.eq_4 _ hbrace,
      takeWhile_hexDigit_append hdigits (by decide)]
    exact if_pos hlength
  | @braced digits hone hsix hdigits =>
    have hbody : '\\' :: 'u' :: '\x7b' :: (digits ++ ['\x7d']) ++ '\'' :: more =
        '\\' :: 'u' :: '\x7b' :: (digits ++ '\x7d' :: '\'' :: more) := by
      simp
    have hrun := takeWhile_hexDigit_append hdigits (c := '\x7d') (by decide) ('\'' :: more)
    rw [hbody, characterBody, escape]
    simp only [hrun, List.drop_left, List.head?_cons, if_true, if_pos (And.intro hone hsix)]
    rfl

theorem escape_starts (h : escape text = .ok body) : body <+: '\\' :: text := by
  unfold escape at h
  split at h
  · cases h
  · dsimp only at h
    split at h
    · cases h
      exact List.prefix_append_right_inj ['\\', 'x'] |>.mpr (List.takeWhile_prefix _)
    · cases h
  · rename_i rest
    dsimp only at h
    split at h
    · rename_i hbrace
      split at h
      · cases h
        obtain ⟨tail, htail⟩ := List.head?_eq_some_iff.mp hbrace
        refine ⟨tail, ?_⟩
        rw [List.append_assoc, List.singleton_append, ← htail]
        exact congrArg ('\\' :: 'u' :: '\x7b' :: ·)
          (List.prefix_iff_eq_append.mp (List.takeWhile_prefix _))
      · cases h
    · cases h
  · dsimp only at h
    split at h
    · cases h
      exact List.prefix_append_right_inj ['\\', 'u'] |>.mpr (List.takeWhile_prefix _)
    · cases h
  · rename_i c rest _ _ _
    split at h
    · cases h
    · cases h
      exact ⟨rest, rfl⟩

theorem characterBody_starts (h : characterBody text = .ok body) : body <+: text := by
  unfold characterBody at h
  split at h
  · cases h
  · cases h
  · exact escape_starts h
  · rename_i c rest _ _
    split at h
    · cases h
    · cases h
      exact ⟨rest, rfl⟩

theorem characterBody_local (h : characterBody text = .ok body) (more : List Char) :
    characterBody (body ++ '\'' :: more) = .ok body :=
  (characterForm_of_characterBody h).read_body more

end FrontEnd.Lexical
