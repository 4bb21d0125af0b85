import FrontEnd.Proofs.Parallel.Basic

/-! The steps that rules are made of, in two runs side by side. -/
namespace FrontEnd.Grammar

open Parse

variable {α β : Type} {K : Link} {s t : State} {ahead : Bool}

theorem moved_token {k : Nat} {token token' : Token} (hlexeme : token'.toLexeme = token.toLexeme)
    (hindex : token'.index = token.index + k) : Moved k token token' := by
  refine ⟨token'.span, ?_⟩
  rw [← hindex, ← hlexeme]

namespace Linked

theorem current (h : Linked K s t) (hs : K.shown s.pos) :
    t.current.toLexeme = s.current.toLexeme := by
  rw [State.toLexeme_current, State.toLexeme_current, h.pos, h.lexeme _ hs]

theorem kind_current (h : Linked K s t) (hs : K.shown s.pos) :
    t.current.kind = s.current.kind :=
  congrArg Lexeme.kind (h.current hs)

theorem index_current (h : Linked K s t) : t.current.index = s.current.index + K.offset := by
  rw [h.valid.index_current, h.valid'.index_current, h.pos]

/-- The tokens at the cursors correspond. -/
theorem moved_current (h : Linked K s t) (hs : K.shown s.pos) :
    Moved K.offset s.current t.current :=
  moved_token (h.current hs) h.index_current

/-- Both runs pass the token at the cursor. -/
theorem next (h : Linked K s t) (hs : K.shown s.pos) (hk : s.current.kind ≠ .endMark) :
    Linked K s.next t.next where
  lexeme := h.lexeme
  size := h.size
  pos := by simp only [State.next_pos, h.pos, Nat.add_right_comm]
  errors := h.errors
  depth := h.depth
  valid := h.valid.next hk
  valid' := h.valid'.next (by rwa [h.kind_current hs])

theorem record (h : Linked K s t) (d : Diagnostic) :
    Linked K { s with errors := s.errors ++ [d] }
      { t with errors := t.errors ++ [d.shift K.offset] } where
  lexeme := h.lexeme
  size := h.size
  pos := h.pos
  errors := by
    rw [h.errors, List.map_append, List.append_assoc]
    rfl
  depth := h.depth
  valid := h.valid
  valid' := h.valid'

theorem withDepth (h : Linked K s t) {d d' : Nat} (hd : d = d' + K.deeper) :
    Linked K { s with depth := d } { t with depth := d' } where
  lexeme := h.lexeme
  size := h.size
  pos := h.pos
  errors := h.errors
  depth := hd
  valid := h.valid
  valid' := h.valid'

/-- A diagnostic about the token at the cursor says the same in both runs. -/
theorem diagnosticHere (h : Linked K s t) (cause : DiagnosticCause) :
    (⟨cause, .single t.current.index⟩ : Diagnostic) =
      Diagnostic.shift K.offset ⟨cause, .single s.current.index⟩ := by
  rw [h.index_current, ← TokenRange.shift_single]
  rfl

end Linked

namespace Follows

theorem current : Follows K (K.Beyond true) current current where
  grows := Grows.refl
  run {s t} hst := by
    by_cases hs : K.shown s.pos
    · exact .ok (hst.moved_current hs) hst
    · exact .excused (.inl (Link.beyond_of_not_shown s.current hs))

/-- A rule that starts with a look at the cursor. -/
theorem look [Moves α] {E : α → State → Prop} {next next' : Token → Parse α}
    (hnext : ∀ token span, Follows K E (next token)
      (next' { token with span := span, index := token.index + K.offset }))
    (hpass : ∀ s : State, s.Valid → ¬ K.shown s.pos →
      K.Excused E ((Grammar.current >>= next) s)) :
    Follows K E (Grammar.current >>= next) (Grammar.current >>= next') where
  grows s := (hnext s.current s.current.span).grows s
  run {s t} hst := by
    by_cases hs : K.shown s.pos
    · obtain ⟨span, hspan⟩ := hst.moved_current hs
      rw [run_bind run_current, run_bind run_current, hspan]
      exact (hnext s.current span).run hst
    · exact .excused (hpass s hst.valid hs)

theorem position {E : Nat → State → Prop} : Follows K E position position where
  grows := Grows.refl
  run hst := .ok hst.pos hst

theorem rangeFrom {E : TokenRange → State → Prop} (start : Nat) :
    Follows K E (rangeFrom start) (rangeFrom (start + K.offset)) where
  grows := Grows.refl
  run {s t} hst := by
    refine .ok ?_ hst
    show TokenRange.clamped _ t.pos = TokenRange.shift K.offset (.clamped start s.pos)
    rw [hst.pos, TokenRange.shift_clamped]

theorem rangeBetween {E : TokenRange → State → Prop} (start stop : Nat) :
    Follows K E (rangeBetween start stop) (rangeBetween (start + K.offset) (stop + K.offset)) := by
  unfold Grammar.rangeBetween
  cases hrange : TokenRange.checked start stop with
  | ok r =>
    obtain ⟨hle, rfl⟩ := TokenRange.checked_eq_ok_iff.mp hrange
    rw [TokenRange.checked_eq_ok_iff.mpr ⟨Nat.add_le_add_right hle _, rfl⟩]
    exact pure rfl
  | error f => exact raise f _

theorem failAt [Moves α] {E : α → State → Prop} (cause : DiagnosticCause) (i : Nat) :
    Follows K E (Parse.fail ⟨cause, .single i⟩) (Parse.fail ⟨cause, .single (i + K.offset)⟩) := by
  rw [← TokenRange.shift_single]
  exact fail _

theorem record {E : Unit → State → Prop} (d : Diagnostic) :
    Follows K E (record d) (record (d.shift K.offset)) where
  grows _ := Grows.record d
  run hst := .ok rfl (hst.record d)

theorem failHere [Moves α] {E : α → State → Prop} (cause : DiagnosticCause) :
    Follows K E (failHere cause) (failHere cause) where
  grows := Grows.refl
  run {s t} hst := by
    have h : Grammar.failHere cause t = (.error ⟨cause, .single t.current.index⟩ t : Outcome α) :=
      rfl
    rw [h, hst.diagnosticHere]
    exact .error hst

theorem isAt (kind : TokenKind) : Follows K (K.Beyond true) (isAt kind) (isAt kind) := by
  refine current.bind ?_
  rintro token _ ⟨span, rfl⟩
  exact pure rfl

theorem isAtKeyword (keyword : Keyword) :
    Follows K (K.Beyond true) (isAtKeyword keyword) (isAtKeyword keyword) := by
  refine current.bind ?_
  rintro token _ ⟨span, rfl⟩
  exact pure rfl

theorem hasTokens : Follows K (K.Beyond true) hasTokens hasTokens :=
  (isAt .endMark).bind fun _ _ h => pure (congrArg (!·) h)

theorem diagnosticHere {E : Diagnostic → State → Prop} (cause : DiagnosticCause) :
    Follows K E (diagnosticHere cause) (diagnosticHere cause) where
  grows := Grows.refl
  run {s t} hst := by
    refine .ok ?_ hst
    exact hst.diagnosticHere cause

theorem advance : Follows K (K.Beyond true) advance advance where
  grows s := by
    unfold Grammar.advance
    split
    · exact Grows.refl s
    · exact Grows.next ‹_›
  run {s t} hst := by
    unfold Grammar.advance
    by_cases hs : K.shown s.pos
    · rw [hst.kind_current hs]
      by_cases hk : s.current.kind = .endMark
      · rw [if_pos hk, if_pos hk]
        exact .ok (hst.moved_current hs) hst
      · rw [if_neg hk, if_neg hk]
        exact .ok (hst.moved_current hs) (hst.next hs hk)
    · refine .excused ?_
      split
      · exact .inl (Link.beyond_of_not_shown s.current hs)
      · exact .inl ((Link.beyond_of_not_shown s.current hs).grows (Grows.next ‹_›))

theorem accept (kind : TokenKind) : Follows K (K.Beyond true) (accept kind) (accept kind) := by
  refine (isAt kind).bind ?_
  rintro here _ rfl
  refine ite ?_ (pure rfl)
  exact advance.map fun token token' h => ⟨token', rfl, h⟩

end Follows

/-- A token that is there is passed, and nothing behind it is looked at. -/
theorem Closes.passing {kind : TokenKind} (hk : kind ≠ .endMark)
    (cause : Lexeme → DiagnosticCause) :
    Closes K
      (Grammar.current >>= fun token =>
        if token.kind = kind then Grammar.advance else Grammar.failHere (cause token.toLexeme))
      (Grammar.current >>= fun token =>
        if token.kind = kind then Grammar.advance
        else Grammar.failHere (cause token.toLexeme)) where
  follows := by
    constructor
    · intro s
      rw [run_bind run_current]
      split
      · exact Follows.advance (K := K).grows s
      · exact Grows.refl s
    · intro s t hst
      rw [run_bind run_current, run_bind run_current]
      -- a token that is not shown may be of another kind on the other side
      by_cases hs : K.shown s.pos
      · rw [hst.kind_current hs, hst.current hs]
        by_cases hc : s.current.kind = kind
        · have hend : s.current.kind ≠ .endMark := hc ▸ hk
          rw [if_pos hc, run_advance hend, run_advance (by rwa [hst.kind_current hs])]
          exact .ok (hst.moved_current hs) (hst.next hs hend)
        · rw [if_neg hc]
          exact (Follows.failHere _).run hst
      · refine .excused ?_
        split
        · have hend : s.current.kind ≠ .endMark := by
            rename_i hc
            exact hc ▸ hk
          rw [run_advance hend]
          exact .inl ⟨s.pos, Nat.lt_succ_self _, hs⟩
        · exact .inr (.inl hs)
  passes {s token t} hrun := by
    rw [run_bind run_current] at hrun
    split at hrun
    · have hend : s.current.kind ≠ .endMark := by
        rename_i hc
        exact hc ▸ hk
      rw [run_advance hend] at hrun
      cases hrun
      exact Nat.lt_succ_self _
    · cases hrun

namespace Closes

theorem expect {kind : TokenKind} (hk : kind ≠ .endMark) (expected : String) :
    Closes K (expect kind expected) (expect kind expected) :=
  passing hk fun lexeme => .unexpectedToken expected lexeme.text

theorem expectSemicolon : Closes K expectSemicolon expectSemicolon :=
  passing TokenKind.noConfusion fun lexeme => .missingSemicolon lexeme.text

theorem expectName (context : String) :
    Closes K (expectName context) (expectName context) := by
  have hword : TokenKind.word ≠ .endMark := by decide
  refine (expect hword context).andThen ?_
  rintro token _ ⟨span, rfl⟩
  dsimp only
  cases hkey : token.keyword? with
  | none =>
    refine Follows.pure ?_
    show Ident.ofToken _ = Ident.shift K.offset (Ident.ofToken token)
    rw [Ident.shift_ofToken]
    rfl
  | some keyword =>
    exact Follows.failAt _ _

end Closes

namespace Follows

theorem expect {kind : TokenKind} (hk : kind ≠ .endMark) (expected : String) :
    Follows K (K.Beyond true) (expect kind expected) (expect kind expected) :=
  (Closes.expect hk expected).looking

theorem expectName (context : String) :
    Follows K (K.Beyond true) (expectName context) (expectName context) :=
  (Closes.expectName context).looking

/-- An item of a list, which goes on if there is a comma behind the item. -/
theorem separated [Shift α] (items : Array α) (item : α) :
    Follows K (K.Beyond true)
      (Grammar.accept .comma >>= fun comma => match comma with
        | some _ => Pure.pure (Round.again (items.push item))
        | none => Pure.pure (Round.done (items.push item)))
      (Grammar.accept .comma >>= fun comma => match comma with
        | some _ => Pure.pure (Round.again ((Shift.shift K.offset items).push
          (Shift.shift K.offset item)))
        | none => Pure.pure (Round.done ((Shift.shift K.offset items).push
          (Shift.shift K.offset item)))) := by
  have hpush := (Shift.shift_push K.offset items item).symm
  refine (accept .comma).bind ?_
  rintro (_ | comma) _ hcomma
  · cases hcomma
    exact pure (congrArg Round.done hpush)
  · obtain ⟨_, rfl, -⟩ := hcomma
    exact pure (congrArg Round.again hpush)

theorem tooDeep [Moves α] {E : α → State → Prop} : Follows K E tooDeep tooDeep :=
  failHere _

/-- One level deeper the two runs need not agree that a level may be opened, if a want of levels is
a diagnostic that they need not share. -/
theorem nested [Moves α] {E : α → State → Prop} {p q : Parse α} (h : Follows K E p q)
    (hE : ∀ a s depth, E a s → E a { s with depth := depth })
    (hdeep : K.Deep) :
    Follows K E (nested p) (nested q) := by
  constructor
  · refine Relates.nested Grows.refl ?_ h.grows
    intro s u hu
    exact ⟨hu.stream, by rw [hu.depth]; rfl, hu.pos, hu.errors, hu.valid⟩
  · intro s t hst
    have hdepth := hst.depth
    unfold Grammar.nested
    by_cases hs : maxDepth ≤ s.depth
    · -- only the first run may lack a level, unless the two are equally deep
      rw [if_pos hs]
      rcases hdeep with hzero | hbad
      · rw [if_pos (by omega)]
        exact tooDeep.run hst
      · exact .excused (.inl (hbad _))
    · rw [if_neg hs, if_neg (by omega)]
      have hgrows := h.grows { s with depth := s.depth + 1 }
      have hopen : s.depth + 1 = t.depth + 1 + K.deeper := by omega
      have hrun := h.run (hst.withDepth hopen)
      have hback : ∀ {u v : State}, Grows { s with depth := s.depth + 1 } u → Linked K u v →
          Linked K { u with depth := u.depth - 1 } { v with depth := v.depth - 1 } := by
        intro u v hu huv
        have hdu : u.depth = s.depth + 1 := hu.depth
        have hduv := huv.depth
        exact huv.withDepth (by omega)
      generalize p { s with depth := s.depth + 1 } = o at hgrows hrun ⊢
      generalize q { t with depth := t.depth + 1 } = o' at hrun ⊢
      cases hrun with
      | ok hab huv => exact .ok hab (hback hgrows huv)
      | error huv => exact .error (hback hgrows huv)
      | excused hex =>
        refine .excused ?_
        cases o with
        | ok a u => exact hex.imp_left (hE a u _)
        | error d u => exact hex
        | fault f u => trivial

/-- Looking back at a token that was passed. -/
theorem previous : Follows K (K.Beyond false) previous previous := by
  constructor
  · intro s
    unfold Grammar.previous
    split
    · exact Grows.refl s
    · split <;> exact Grows.refl s
  · intro s t hst
    have hs : s.pos ≤ s.stream.limit := hst.valid
    have ht : t.pos ≤ t.stream.limit := hst.valid'
    have hpos := hst.pos
    unfold Grammar.previous
    cases hi : s.pos with
    | zero => exact .excused trivial
    | succ i =>
      have hs' : i < s.stream.tokens.size := by
        have := s.stream.limit_lt_size
        omega
      have ht' : i + K.offset < t.stream.tokens.size := by
        have := t.stream.limit_lt_size
        omega
      have hj : t.pos = i + K.offset + 1 := by omega
      simp only [hj, Array.getElem?_eq_getElem hs', Array.getElem?_eq_getElem ht']
      by_cases hshown : K.shown i
      · have hlexeme := hst.lexeme i hshown
        simp only [State.lexeme, TokenStream.lexeme, TokenStream.get_of_lt hs',
          TokenStream.get_of_lt ht'] at hlexeme
        refine .ok (moved_token hlexeme ?_) hst
        rw [s.stream.numbered i hs', t.stream.numbered _ ht']
      · -- the token was passed, so that it is not shown counts without a look ahead
        exact .excused (.inl ⟨i, by rw [hi]; exact Nat.lt_succ_self i, hshown⟩)

theorem recoverRound (u : Unit) :
    Follows K (K.Beyond true) (recoverRound u) (recoverRound u) := by
  refine current.bind ?_
  rintro token _ ⟨span, rfl⟩
  refine ite (pure rfl) (previous.looking.bind ?_)
  rintro before _ ⟨span, rfl⟩
  refine ite (pure rfl) (advance.bind ?_)
  intro _ _ _
  exact pure rfl

theorem recover : Follows K (K.Beyond true) recover recover := by
  refine (position (E := K.Beyond true)).bind ?_
  rintro start _ rfl
  refine (isAt .closeCurly).bind ?_
  rintro here _ rfl
  refine ite (pure rfl) (advance.bind ?_)
  intro _ _ _
  refine (loop recoverRound ()).bind ?_
  intro _ _ _
  refine (position (E := K.Beyond true)).bind ?_
  rintro stop _ rfl
  refine (rangeBetween (E := K.Beyond true) start stop).bind ?_
  intro _ _ _
  exact pure rfl

/-- After an error: it is recorded, and reading goes on elsewhere with what was read before. -/
theorem resume [Shift α] [Shift β] (d : Diagnostic) (a : α) :
    Follows K (K.Beyond true)
      (Grammar.record d >>= fun _ => Grammar.recover >>= fun _ =>
        Pure.pure (Round.again a : Round α β))
      (Grammar.record (d.shift K.offset) >>= fun _ => Grammar.recover >>= fun _ =>
        Pure.pure (Round.again (Shift.shift K.offset a))) :=
  (record d).bind fun _ _ _ => recover.bind fun _ _ _ => pure rfl

end Follows

theorem Closes.nested [Moves α] {p q : Parse α} (h : Closes K p q) (hdeep : K.Deep) :
    Closes K (nested p) (nested q) where
  follows := h.follows.nested (fun _ _ _ h => h) hdeep
  passes {s a t} hrun := by
    unfold Grammar.nested at hrun
    split at hrun
    · cases hrun
    · split at hrun
      · rename_i hp
        cases hrun
        have hlt := h.passes hp
        exact hlt
      · cases hrun
      · cases hrun

/-- What was recorded excuses all that follows. -/
theorem Link.Excused.record {E : β → State → Prop} {d : Diagnostic} {next : Unit → Parse β}
    (hbad : K.bad d) (hgrows : ∀ u, Grows u (next () u).state) :
    K.Excused E ((Grammar.record d >>= next) s) :=
  of_blames ⟨d, List.mem_append_right _ (List.mem_singleton_self d), hbad⟩ (hgrows _)

end FrontEnd.Grammar
