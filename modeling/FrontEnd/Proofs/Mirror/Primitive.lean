import FrontEnd.Proofs.Mirror.Basic

/-! The steps that rules are made of, on streams that look the same. -/
namespace FrontEnd.Grammar

open Parse

variable {α : Type} {d : Nat} {R : α → α → Prop}

/-- Both runs pass the token at the cursor, or stay before the end mark. -/
theorem Alike.advance {s t : State} (h : Alike d s t) :
    ∃ s' t', advance s = .ok s.current s' ∧ advance t = .ok t.current t' ∧ Alike d s' t' := by
  unfold Grammar.advance
  rw [h.current.kind]
  by_cases hk : s.current.kind = .endMark
  · simp only [hk, if_true]
    exact ⟨s, t, rfl, rfl, h⟩
  · simp only [hk, if_false]
    exact ⟨s.next, t.next, rfl, rfl, h.next hk⟩

namespace Mirrors

theorem current : Mirrors Token.Alike d current current :=
  fun _ _ hst => .ok hst.current hst

/-- A rule that starts with a look at the cursor. -/
theorem look {next next' : Token → Parse α}
    (hnext : ∀ a b : Token, a.Alike b → Mirrors R d (next a) (next' b)) :
    Mirrors R d (Grammar.current >>= next) (Grammar.current >>= next') :=
  current.bindOf hnext

theorem position : Mirrors Eq d position position :=
  fun _ _ hst => .ok hst.pos.symm hst

theorem rangeFrom (start : Nat) : Mirrors Eq d (rangeFrom start) (rangeFrom start) := by
  intro s t hst
  simp only [Grammar.rangeFrom, hst.pos]
  exact .ok rfl hst

theorem rangeBetween (start stop : Nat) :
    Mirrors Eq d (rangeBetween start stop) (rangeBetween start stop) :=
  lift _

theorem diagnosticHere (cause : DiagnosticCause) :
    Mirrors Eq d (diagnosticHere cause) (diagnosticHere cause) := by
  apply look
  intro a b h
  rw [h.index]
  exact pure _

theorem failHere (cause : DiagnosticCause) : Mirrors R d (failHere cause) (failHere cause) :=
  (diagnosticHere cause).bind fail

theorem record (e : Diagnostic) : Mirrors Eq d (record e) (record e) :=
  fun _ _ hst => .ok rfl (hst.record e)

theorem isAt (kind : TokenKind) : Mirrors Eq d (isAt kind) (isAt kind) := by
  apply look
  intro a b h
  rw [h.kind]
  exact pure _

theorem isAtKeyword (keyword : Keyword) :
    Mirrors Eq d (isAtKeyword keyword) (isAtKeyword keyword) := by
  apply look
  intro a b h
  rw [h.isKeyword]
  exact pure _

theorem hasTokens : Mirrors Eq d hasTokens hasTokens :=
  (isAt .endMark).bind fun _ => pure _

theorem advance : Mirrors Token.Alike d advance advance := by
  intro s t hst
  obtain ⟨s', t', hs, ht, hst'⟩ := hst.advance
  rw [hs, ht]
  exact .ok hst.current hst'

theorem accept (kind : TokenKind) :
    Mirrors (Option.Rel Token.Alike) d (accept kind) (accept kind) := by
  apply (isAt kind).bind
  intro here
  apply ite
  · exact advance.mapOf fun _ _ h => .some h
  · exact pureOf .none

/-- A token that has to be there is passed, or reported in a way that depends on its looks. -/
theorem passing (kind : TokenKind) (cause : Lexeme → DiagnosticCause)
    (hcause : ∀ a b : Token, a.Alike b → cause b.toLexeme = cause a.toLexeme) :
    Mirrors (fun a b => a.Alike b ∧ a.kind = kind) d
      (Grammar.current >>= fun token =>
        if token.kind = kind then Grammar.advance else Grammar.failHere (cause token.toLexeme))
      (Grammar.current >>= fun token =>
        if token.kind = kind then Grammar.advance
        else Grammar.failHere (cause token.toLexeme)) := by
  intro s t hst
  rw [run_bind run_current, run_bind run_current, hst.current.kind, hcause _ _ hst.current]
  by_cases hk : s.current.kind = kind
  · rw [if_pos hk]
    obtain ⟨s', t', hs, ht, hst'⟩ := hst.advance
    rw [hs, ht]
    exact .ok ⟨hst.current, hk⟩ hst'
  · rw [if_neg hk]
    exact failHere _ hst

theorem expect (kind : TokenKind) (expected : String) :
    Mirrors (fun a b => a.Alike b ∧ a.kind = kind) d (expect kind expected)
      (expect kind expected) := by
  apply passing kind fun lexeme => .unexpectedToken expected lexeme.text
  intro a b h
  rw [h.text]

theorem expectSemicolon :
    Mirrors (fun a b => a.Alike b ∧ a.kind = .semicolon) d expectSemicolon expectSemicolon := by
  apply passing .semicolon fun lexeme => .missingSemicolon lexeme.text
  intro a b h
  rw [h.text]

theorem expectName (context : String) :
    Mirrors Eq d (expectName context) (expectName context) := by
  apply (expect .word context).bindOf
  intro a b ⟨h, hword⟩
  have hname : Ident.ofToken b = Ident.ofToken a := h.ident (by simp [hword])
  simp only [h.keyword?, h.index, hname]
  cases a.keyword? with
  | some keyword => exact fail _
  | none => exact pure _

/-- An item of a list, which goes on if there is a comma behind the item. -/
theorem separated (items : Array α) (item : α) :
    Mirrors Eq d
      (Grammar.accept .comma >>= fun comma => match comma with
        | some _ => Pure.pure (Round.again (items.push item))
        | none => Pure.pure (Round.done (items.push item)))
      (Grammar.accept .comma >>= fun comma => match comma with
        | some _ => Pure.pure (Round.again (items.push item))
        | none => Pure.pure (Round.done (items.push item))) := by
  apply (accept .comma).bindOf
  intro comma comma' h
  cases h with
  | some _ => exact pure _
  | none => exact pure _

/-- One level deeper the two rules do the same as well. -/
theorem nested {p q : Parse α} (h : Mirrors R (d + 1) p q) :
    Mirrors R d (nested p) (nested q) := by
  intro s t hst
  unfold Grammar.nested
  rw [hst.depth, hst.depth']
  by_cases hd : maxDepth ≤ d
  · simp only [hd, if_true]
    exact failHere _ hst
  · simp only [hd, if_false]
    have hrun := h (hst.withDepth (d + 1))
    have hback : ∀ {u v : State}, Alike (d + 1) u v →
        Alike d { u with depth := u.depth - 1 } { v with depth := v.depth - 1 } := by
      intro u v huv
      rw [huv.depth, huv.depth']
      exact huv.withDepth d
    generalize p _ = o at hrun ⊢
    generalize q _ = o' at hrun ⊢
    cases hrun with
    | ok hab huv => exact .ok hab (hback huv)
    | error huv => exact .error (hback huv)
    | fault => exact .fault

/-- The token before the cursor was passed, so that it is no end mark. -/
theorem previous : Mirrors Token.Alike d previous previous := by
  intro s t hst
  have hs : s.pos ≤ s.stream.limit := hst.valid
  have hlimit := hst.limit
  have hsize := s.stream.limit_lt_size
  have hsize' := t.stream.limit_lt_size
  unfold Grammar.previous
  rw [hst.pos]
  cases hi : s.pos with
  | zero => exact .fault
  | succ i =>
    have hlt : i < s.stream.tokens.size := by omega
    have hlt' : i < t.stream.tokens.size := by omega
    simp only [Array.getElem?_eq_getElem hlt, Array.getElem?_eq_getElem hlt']
    rw [← TokenStream.get_of_lt hlt, ← TokenStream.get_of_lt hlt']
    exact .ok (hst.get (by omega)) hst

theorem recoverRound (u : Unit) : Mirrors Eq d (recoverRound u) (recoverRound u) := by
  apply look
  intro a b h
  simp only [h.kind, h.opensStatement]
  apply ite (pure _)
  apply previous.bindOf
  intro before before' h'
  simp only [h'.kind]
  apply ite (pure _)
  exact advance.bindOf fun _ _ _ => pure _

theorem recover : Mirrors Eq d recover recover := by
  apply position.bind
  intro start
  apply (isAt .closeCurly).bind
  intro here
  apply ite (pure _)
  apply advance.bindOf
  intro _ _ _
  apply (loop recoverRound ()).bind
  intro _
  exact position.bind fun stop => (rangeBetween start stop).bind fun _ => pure _

/-- After an error: it is recorded, and reading goes on elsewhere. -/
theorem resume {β : Type} (e : Diagnostic) (r : β) :
    Mirrors Eq d (Grammar.record e >>= fun _ => Grammar.recover >>= fun _ => Pure.pure r)
      (Grammar.record e >>= fun _ => Grammar.recover >>= fun _ => Pure.pure r) :=
  (record e).bind fun _ => recover.bind fun _ => pure r

end Mirrors

end FrontEnd.Grammar
