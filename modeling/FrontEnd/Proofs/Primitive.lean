import FrontEnd.Proofs.Contract
import FrontEnd.Proofs.Derivation

/-! Contracts of the steps that rules are made of. -/
namespace FrontEnd.Grammar

open Parse

variable {α : Type} {s : State} {post : α → State → Prop}

/-- Ranges whose ends are in order are made. -/
theorem run_rangeBetween {start stop : Nat} (h : start ≤ stop) :
    rangeBetween start stop s = .ok ⟨start, stop⟩ s := by
  rw [rangeBetween, TokenRange.checked_eq_ok_iff.mpr ⟨h, rfl⟩]
  rfl

namespace Ensures

theorem current : Ensures current s fun token t => token = s.current ∧ t = s :=
  ⟨Grows.refl s, rfl, rfl⟩

theorem position : Ensures position s fun i t => i = s.pos ∧ t = s :=
  ⟨Grows.refl s, rfl, rfl⟩

theorem rangeFrom (start : Nat) :
    Ensures (rangeFrom start) s fun r t => r = .clamped start s.pos ∧ t = s :=
  ⟨Grows.refl s, rfl, rfl⟩

theorem rangeBetween {start stop : Nat} (h : start ≤ stop) :
    Ensures (rangeBetween start stop) s fun r t => r = ⟨start, stop⟩ ∧ t = s := by
  unfold Ensures
  rw [run_rangeBetween h]
  exact ⟨Grows.refl s, rfl, rfl⟩

theorem isAt (kind : TokenKind) :
    Ensures (isAt kind) s fun b t => (b = true ↔ s.current.kind = kind) ∧ t = s :=
  ⟨Grows.refl s, beq_iff_eq, rfl⟩

theorem isAtKeyword (keyword : Keyword) :
    Ensures (isAtKeyword keyword) s fun b t => b = s.current.isKeyword keyword ∧ t = s :=
  ⟨Grows.refl s, rfl, rfl⟩

theorem hasTokens :
    Ensures hasTokens s fun b t => (b = true ↔ s.current.kind ≠ .endMark) ∧ t = s := by
  refine ⟨Grows.refl s, ?_, rfl⟩
  simp

theorem diagnosticHere (cause : DiagnosticCause) :
    Ensures (diagnosticHere cause) s fun d t => d = ⟨cause, .single s.current.index⟩ ∧ t = s :=
  ⟨Grows.refl s, rfl, rfl⟩

theorem failHere (cause : DiagnosticCause) : Ensures (failHere cause : Parse α) s post :=
  Grows.refl s

theorem tooDeep : Ensures (tooDeep : Parse α) s post :=
  failHere _

theorem record (d : Diagnostic) :
    Ensures (record d) s fun _ t => t = { s with errors := s.errors ++ [d] } :=
  ⟨Grows.record d, rfl⟩

theorem advance (h : s.current.kind ≠ .endMark) :
    Ensures advance s fun token t => token = s.current ∧ t = s.next := by
  unfold Ensures Grammar.advance
  rw [if_neg h]
  exact ⟨Grows.next h, rfl, rfl⟩

theorem accept {kind : TokenKind} (hk : kind ≠ .endMark) :
    Ensures (accept kind) s fun token? t =>
      match token? with
      | some token => s.current.kind = kind ∧ token = s.current ∧ t = s.next
      | none => s.current.kind ≠ kind ∧ t = s := by
  unfold Grammar.accept
  refine (isAt kind).bind ?_
  rintro b t _ ⟨hb, rfl⟩
  cases b with
  | true =>
    have hc : t.current.kind = kind := hb.mp rfl
    refine (advance (hc ▸ hk)).map ?_
    rintro token u _ ⟨rfl, rfl⟩
    exact ⟨hc, rfl, rfl⟩
  | false =>
    refine Ensures.pure ⟨?_, rfl⟩
    intro hc
    exact absurd (hb.mpr hc) (by decide)

theorem expect {kind : TokenKind} (hk : kind ≠ .endMark) (expected : String) :
    Ensures (expect kind expected) s fun token t =>
      s.current.kind = kind ∧ token = s.current ∧ t = s.next := by
  unfold Grammar.expect
  refine current.bind ?_
  rintro token t _ ⟨rfl, rfl⟩
  by_cases hc : t.current.kind = kind
  · rw [if_pos hc]
    refine (advance (hc ▸ hk)).mono ?_
    rintro token u _ ⟨rfl, rfl⟩
    exact ⟨hc, rfl, rfl⟩
  · rw [if_neg hc]
    exact failHere _

theorem expectSemicolon :
    Ensures expectSemicolon s fun token t =>
      s.current.kind = .semicolon ∧ token = s.current ∧ t = s.next := by
  unfold Grammar.expectSemicolon
  refine current.bind ?_
  rintro token t _ ⟨rfl, rfl⟩
  by_cases hc : t.current.kind = .semicolon
  · rw [if_pos hc]
    refine (advance (by rw [hc]; decide)).mono ?_
    rintro token u _ ⟨rfl, rfl⟩
    exact ⟨hc, rfl, rfl⟩
  · rw [if_neg hc]
    exact failHere _

theorem expectName (hs : s.Valid) (context : String) :
    Ensures (expectName context) s fun x t => NameAt s.lexeme s.pos x ∧ t = s.next := by
  unfold Grammar.expectName
  refine (expect (by decide) context).bind ?_
  rintro token t _ ⟨hword, rfl, rfl⟩
  cases hkey : s.current.keyword? with
  | some keyword => exact Ensures.fail _
  | none =>
    refine Ensures.pure ⟨⟨hword, hkey, ?_⟩, rfl⟩
    simp only [Ident.ofToken, hkey, hs.index_current]
    rfl

/-- A contract may mention the run itself. -/
theorem run {p : Parse α} (h : Ensures p s post) :
    Ensures p s fun a t => post a t ∧ p s = .ok a t := by
  unfold Ensures at h ⊢
  cases hp : p s with
  | ok a t =>
    rw [hp] at h
    exact ⟨h.1, h.2, rfl⟩
  | error d t =>
    rw [hp] at h
    exact h
  | fault f t =>
    rw [hp] at h
    exact h

/-- The token before the cursor is there as soon as one was passed. -/
theorem previous (hs : s.Valid) (hpos : 0 < s.pos) :
    Ensures previous s fun token t => token = s.stream.get (s.pos - 1) ∧ t = s := by
  obtain ⟨i, hi⟩ : ∃ i, s.pos = i + 1 := ⟨s.pos - 1, by omega⟩
  have hsize := s.stream.limit_lt_size
  have hlt : i < s.stream.tokens.size := by
    have hle : s.pos ≤ s.stream.limit := hs
    omega
  unfold Ensures Grammar.previous
  simp only [hi, Array.getElem?_eq_getElem hlt]
  refine ⟨Grows.refl s, ?_, trivial⟩
  rw [Nat.add_sub_cancel, TokenStream.get_of_lt hlt]

/-- The token before the cursor is needed only if the rounds go on, that is before a token that is
not the end mark. -/
theorem recoverRound (hs : s.Valid) (hpos : s.current.kind ≠ .endMark → 0 < s.pos) :
    Ensures (recoverRound ()) s (AfterRound (fun _ t => t = s.next) fun _ t => t = s) := by
  unfold Grammar.recoverRound
  refine current.bind ?_
  rintro token t _ ⟨rfl, rfl⟩
  by_cases hend : t.current.kind = .endMark
  · rw [if_pos hend]
    exact Ensures.pure rfl
  · rw [if_neg hend]
    refine (previous hs (hpos hend)).bind ?_
    rintro before u _ ⟨-, rfl⟩
    split
    · exact Ensures.pure rfl
    · refine (advance hend).bind ?_
      rintro token v _ ⟨-, rfl⟩
      exact Ensures.pure rfl

/-- The rounds of recovery record nothing. -/
theorem recoverRounds (hs : s.Valid) (hpos : s.current.kind ≠ .endMark → 0 < s.pos) :
    Ensures (Parse.loop Grammar.recoverRound ()) s fun _ t => t.errors = s.errors := by
  refine loop (fun _ t => t.errors = s.errors ∧ (t.current.kind ≠ .endMark → 0 < t.pos)) hs
    ⟨rfl, hpos⟩ ?_
  rintro _ t _ ht ⟨herrors, hmoved⟩
  refine (recoverRound ht hmoved).mono ?_
  rintro r u _ hr
  cases r with
  | again _ =>
    obtain rfl : u = t.next := hr
    exact ⟨Nat.lt_succ_self _, herrors, fun _ => Nat.succ_pos _⟩
  | done _ =>
    obtain rfl : u = t := hr
    exact herrors

/-- The token at the cursor is passed, or it is the end mark. -/
theorem advanceUnlessEnd :
    Ensures Grammar.advance s fun _ t =>
      t.errors = s.errors ∧ (t.current.kind ≠ .endMark → 0 < t.pos) ∧
        (s.current.kind ≠ .endMark → s.pos < t.pos) := by
  by_cases hend : s.current.kind = .endMark
  · unfold Ensures Grammar.advance
    rw [if_pos hend]
    exact ⟨Grows.refl s, rfl, fun h => absurd hend h, fun h => absurd hend h⟩
  · refine (advance hend).mono ?_
    rintro token t _ ⟨-, rfl⟩
    exact ⟨rfl, fun _ => Nat.succ_pos _, fun _ => Nat.lt_succ_self _⟩

/-- Recovery records nothing. It passes the token at the cursor unless that is a closing brace or
the end mark. -/
theorem recover (hs : s.Valid) :
    Ensures recover s fun _ t =>
      t.errors = s.errors ∧
        (s.current.kind ≠ .closeCurly → s.current.kind ≠ .endMark → s.pos < t.pos) := by
  unfold Grammar.recover
  refine position.bind ?_
  rintro start t _ ⟨rfl, rfl⟩
  refine (isAt .closeCurly).bind ?_
  rintro b u _ ⟨hb, rfl⟩
  cases b with
  | true => exact Ensures.pure ⟨rfl, fun hc => absurd (hb.mp rfl) hc⟩
  | false =>
    refine advanceUnlessEnd.bind ?_
    rintro token v hv ⟨herrors, hmoved, hpassed⟩
    refine (recoverRounds (hv.valid hs) hmoved).bind ?_
    rintro _ w hw herrors'
    refine position.bind ?_
    rintro stop x _ ⟨rfl, rfl⟩
    -- the cursor has not moved back, so what was skipped is a range
    refine (rangeBetween (Nat.le_trans hv.pos hw.pos)).bind ?_
    rintro skipped y _ ⟨-, rfl⟩
    exact Ensures.pure ⟨herrors'.trans herrors,
      fun _ hend => Nat.lt_of_lt_of_le (hpassed hend) hw.pos⟩

end Ensures

end FrontEnd.Grammar
