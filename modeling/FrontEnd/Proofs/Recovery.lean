import FrontEnd.Proofs.Acceptance.Signature
import Mathlib.Order.Nat

/-! Recovery. After an error reading goes on at the first place behind the cursor where a statement
may start. The token at the cursor is passed unseen, unless it is a closing brace or the end mark;
from there on every place is looked at, and the end mark of the stream is the last one that can be
found. -/
namespace FrontEnd

/-- The words that open a statement. -/
def statementWords : List String :=
  ["let", "action", "compute", "return", "import"]

theorem Lexeme.opensStatement_iff {lexeme : Lexeme} :
    lexeme.opensStatement = true ↔ lexeme.kind = .word ∧ lexeme.value ∈ statementWords := by
  unfold statementWords
  by_cases hword : lexeme.kind = .word
  · simp only [opensStatement, keyword?, hword, if_true, true_and]
    constructor
    · intro h
      cases hkey : Keyword.ofText? lexeme.value with
      | none => simp [hkey] at h
      | some keyword =>
        rw [hkey] at h
        rw [← Keyword.text_of_ofText? hkey]
        cases keyword <;> simp [Keyword.opensStatement, Keyword.statementForm?, Keyword.text] at h ⊢
    · intro h
      simp only [List.mem_cons, List.not_mem_nil, or_false] at h
      rcases h with h | h | h | h | h <;> rw [h] <;> rfl
  · simp [opensStatement, keyword?, hword]

namespace Grammar

open Parse

variable {s : State} {q : Nat}

/-- A place where reading may go on after an error: behind a semicolon, on a closing brace, on the
end mark, or on a keyword that opens a statement. -/
inductive ResumesAt (T : Nat → Lexeme) (i : Nat) : Prop where
  | semicolon : (T (i - 1)).kind = .semicolon → ResumesAt T i
  | closing : (T i).kind = .closeCurly → ResumesAt T i
  | ending : (T i).kind = .endMark → ResumesAt T i
  | keyword : (T i).kind = .word → (T i).value ∈ statementWords → ResumesAt T i

/-- A token that is no end mark has another one behind it. -/
theorem State.succ_pos_lt_size (hend : s.current.kind ≠ .endMark) :
    s.pos + 1 < s.stream.tokens.size := by
  by_contra hle
  exact hend (TokenStream.kind_get_of_size_le (by omega))

theorem run_previous (hpos : 0 < s.pos) (hin : s.pos ≤ s.stream.tokens.size) :
    previous s = .ok (s.stream.get (s.pos - 1)) s := by
  obtain ⟨i, hi⟩ := Nat.exists_eq_succ_of_ne_zero (Nat.ne_zero_of_lt hpos)
  have hlt : i < s.stream.tokens.size := by omega
  unfold previous
  simp only [hi, Nat.succ_eq_add_one, Array.getElem?_eq_getElem hlt, Nat.add_sub_cancel,
    TokenStream.get_of_lt hlt]

section

variable (hpos : 0 < s.pos) (hin : s.pos ≤ s.stream.tokens.size)

include hpos hin

theorem run_recoverRound_done (h : ResumesAt s.lexeme s.pos) :
    recoverRound () s = .ok (.done ()) s := by
  unfold recoverRound
  rw [run_bind run_current]
  by_cases hend : s.current.kind = .endMark
  · rw [if_pos hend]
    rfl
  · rw [if_neg hend, run_bind (run_previous hpos hin), if_pos]
    · rfl
    · cases h with
      | semicolon h => exact .inl h
      | closing h => exact .inr (.inl h)
      | ending h => exact absurd h hend
      | keyword hword hvalue =>
        exact .inr (.inr (Lexeme.opensStatement_iff.mpr ⟨hword, hvalue⟩))

theorem run_recoverRound_again (h : ¬ ResumesAt s.lexeme s.pos) :
    recoverRound () s = .ok (.again ()) s.next := by
  have hend : s.current.kind ≠ .endMark := fun hend => h (.ending hend)
  unfold recoverRound
  rw [run_bind run_current, if_neg hend, run_bind (run_previous hpos hin), if_neg,
    run_bind (run_advance hend)]
  · rfl
  · intro hstop
    rcases hstop with hsemi | hclose | hopens
    · exact h (.semicolon hsemi)
    · exact h (.closing hclose)
    · obtain ⟨hword, hvalue⟩ := Lexeme.opensStatement_iff.mp hopens
      exact h (.keyword hword hvalue)

/-- The rounds end at the first place from the cursor on where reading may go on. -/
theorem run_recoverRounds {rounds : Nat}
    (hq : IsLeast {i | s.pos ≤ i ∧ ResumesAt s.lexeme i} q) (hr : s.remaining < rounds) :
    loopFor recoverRound rounds () s = .ok () (s.moveTo q) := by
  induction rounds generalizing s with
  | zero => omega
  | succ rounds ih =>
    obtain ⟨⟨hle, hresumes⟩, hleast⟩ := hq
    -- a round stops here, or the least place lies behind the cursor
    by_cases hhere : ResumesAt s.lexeme s.pos
    · have hstop : q = s.pos := Nat.le_antisymm (hleast ⟨Nat.le_refl _, hhere⟩) hle
      rw [hstop]
      exact run_loopFor_done (run_recoverRound_done hpos hin hhere)
    · have hsize := State.succ_pos_lt_size fun hend => hhere (.ending hend)
      have hlt : s.pos < q := by
        by_cases hstop : q = s.pos
        · exact absurd (hstop ▸ hresumes) hhere
        · omega
      have hleft : s.next.remaining < rounds := by
        simp only [State.remaining, State.next_stream, State.next_pos] at hr ⊢
        omega
      rw [run_loopFor_again (run_recoverRound_again hpos hin hhere)]
      exact ih (s := s.next) (Nat.succ_pos _) (Nat.le_of_lt hsize)
        ⟨⟨hlt, hresumes⟩, fun i hi => hleast ⟨Nat.le_of_lt hi.1, hi.2⟩⟩ hleft

theorem run_recoverLoop (hq : IsLeast {i | s.pos ≤ i ∧ ResumesAt s.lexeme i} q) :
    loop recoverRound () s = .ok () (s.moveTo q) :=
  run_recoverRounds hpos hin hq (Nat.lt_succ_self _)

end

/-- What the rounds behind the first token come to is what recovery comes to, if they have not
moved the cursor back. -/
theorem run_recover_of_rounds {t u : State} {token : Token}
    (hclose : s.current.kind ≠ .closeCurly) (hadvance : advance s = .ok token t)
    (hrounds : loop recoverRound () t = .ok () u) (hle : s.pos ≤ u.pos) :
    recover s = .ok () u := by
  unfold recover
  rw [run_bind run_position, run_bind (run_isAt_false hclose), if_neg Bool.false_ne_true,
    run_bind hadvance, run_bind hrounds, run_bind run_position, run_bind (run_rangeBetween hle)]
  rfl

/-- A token that is neither a closing brace nor the end mark is passed, whatever it is. -/
theorem run_recover_next (hclose : s.current.kind ≠ .closeCurly)
    (hend : s.current.kind ≠ .endMark)
    (hq : IsLeast {i | s.pos < i ∧ ResumesAt s.lexeme i} q) :
    recover s = .ok () (s.moveTo q) := by
  have hsize := State.succ_pos_lt_size hend
  have hrounds : loop recoverRound () s.next = .ok () (s.next.moveTo q) :=
    run_recoverLoop (Nat.succ_pos _) (Nat.le_of_lt hsize) hq
  exact run_recover_of_rounds hclose (run_advance hend) hrounds (Nat.le_of_lt hq.1.1)

theorem run_recover_closeCurly (hclose : s.current.kind = .closeCurly) : recover s = .ok () s := by
  unfold recover
  rw [run_bind run_position, run_bind (run_isAt_true hclose)]
  rfl

/-- The end mark is not passed, and the first round stops on it. -/
theorem run_recover_endMark (hend : s.current.kind = .endMark) : recover s = .ok () s := by
  have hadvance : advance s = .ok s.current s := by
    unfold advance
    rw [if_pos hend]
  have hround : recoverRound () s = .ok (.done ()) s := by
    unfold recoverRound
    rw [run_bind run_current, if_pos hend]
    rfl
  have hclose : s.current.kind ≠ .closeCurly := by simp [hend]
  exact run_recover_of_rounds hclose hadvance (run_loopFor_done hround) (Nat.le_refl _)

/-- Behind a token that is no end mark there is a place to go on at, the end of the stream if no
other. -/
theorem exists_isLeast_resumesAt (hend : s.current.kind ≠ .endMark) :
    ∃ q, IsLeast {i | s.pos < i ∧ ResumesAt s.lexeme i} q := by
  classical
  have hsize := State.succ_pos_lt_size hend
  have hlast : ∃ i, s.pos < i ∧ ResumesAt s.lexeme i :=
    ⟨s.stream.tokens.size - 1, by omega,
      .ending (TokenStream.kind_get_of_size_le (by omega))⟩
  exact ⟨Nat.find hlast, Nat.isLeast_find hlast⟩

/-- From every state recovery ends without an error and moves nothing but the cursor. On a closing
brace or the end mark the cursor stays; from any other token it moves to the first place behind it
where reading may go on, so that a keyword at the cursor itself does not stop it. -/
theorem recover_moves (s : State) :
    (s.current.kind = .closeCurly ∨ s.current.kind = .endMark → recover s = .ok () s) ∧
      (s.current.kind ≠ .closeCurly → s.current.kind ≠ .endMark →
        ∃ q, IsLeast {i | s.pos < i ∧ ResumesAt s.lexeme i} q ∧
          recover s = .ok () (s.moveTo q)) := by
  constructor
  · intro hrests
    rcases hrests with hclose | hend
    · exact run_recover_closeCurly hclose
    · exact run_recover_endMark hend
  · intro hclose hend
    obtain ⟨q, hq⟩ := exists_isLeast_resumesAt hend
    exact ⟨q, hq, run_recover_next hclose hend hq⟩

/-- The tokens of `let x as` and `; return`, with an end mark between them. -/
def interruptedTokens : List Token :=
  [⟨.word "let", ⟨0, 3⟩, 0⟩, ⟨.word "x", ⟨4, 5⟩, 0⟩, ⟨.word "as", ⟨6, 8⟩, 0⟩, .endMark 8 0,
    ⟨.fixed .semicolon, ⟨9, 10⟩, 0⟩, ⟨.word "return", ⟨11, 17⟩, 0⟩]

/-- The keyword at the cursor is passed, and so is one that opens no statement; the end mark in the
middle stops the cursor in front of the semicolon. Behind that end mark recovery works as well: it
passes the semicolon and stops at once. -/
theorem recover_moves_interrupted :
    IsLeast {i | 0 < i ∧ ResumesAt (State.ofTokens interruptedTokens).lexeme i} 3 ∧
      recover (.ofTokens interruptedTokens) =
        .ok () ((State.ofTokens interruptedTokens).moveTo 3) ∧
      recover ((State.ofTokens interruptedTokens).moveTo 3) =
        .ok () ((State.ofTokens interruptedTokens).moveTo 3) ∧
      recover ((State.ofTokens interruptedTokens).moveTo 4) =
        .ok () ((State.ofTokens interruptedTokens).moveTo 5) := by
  have hfirst : (recover (.ofTokens interruptedTokens)).state.pos = 3 := by decide +kernel
  have hlater : (recover ((State.ofTokens interruptedTokens).moveTo 4)).state.pos = 5 := by
    decide +kernel
  obtain ⟨q, hq, hrun⟩ :=
    (recover_moves (.ofTokens interruptedTokens)).2 (by decide +kernel) (by decide +kernel)
  obtain ⟨r, -, hrun'⟩ := (recover_moves ((State.ofTokens interruptedTokens).moveTo 4)).2
    (by decide +kernel) (by decide +kernel)
  rw [hrun] at hfirst
  rw [hrun'] at hlater
  obtain rfl : q = 3 := hfirst
  obtain rfl : r = 5 := hlater
  exact ⟨hq, hrun,
    (recover_moves ((State.ofTokens interruptedTokens).moveTo 3)).1 (.inr (by decide +kernel)),
    hrun'⟩

end Grammar

end FrontEnd
