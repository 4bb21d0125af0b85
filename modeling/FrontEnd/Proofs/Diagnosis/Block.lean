import FrontEnd.Proofs.Diagnosis.Statement
import FrontEnd.Proofs.Reading.Program

/-! Diagnostics of blocks, and with them of the rules at every depth. A block records the error of a
statement where it stopped and goes on behind it, so what it records later ends later. -/
namespace FrontEnd.Grammar

open Parse

variable {α : Type} {s t : State}

namespace Reports

/-- The token before the cursor moves nothing. -/
theorem previous : Reports previous s fun _ t => t = s := by
  unfold Reports Grammar.previous
  cases hpos : s.pos with
  | zero => trivial
  | succ i =>
    cases htoken : s.stream.tokens[i]? with
    | none => simp only [htoken]
    | some token =>
      simp only [htoken]
      exact ⟨Grows.refl s, trivial⟩

theorem recoverRound (hs : s.Ready) :
    Reports (recoverRound ()) s (AfterRound (fun _ t => t.Ready) fun _ t => t.Ready) := by
  unfold Grammar.recoverRound
  refine .look (.ite (fun _ => .pure hs) fun hend => previous.bind ?_)
  rintro before t _ rfl
  refine .ite (fun _ => .pure hs) fun _ => (advance hend).bind ?_
  rintro token u _ ⟨-, rfl⟩
  exact .pure (hs.next hend)

/-- Recovery only moves on. -/
theorem recover (hs : s.Ready) : Reports recover s fun _ t => t.Ready := by
  unfold Grammar.recover
  refine .position (.isAt (fun _ => .pure hs) fun _ => ?_)
  have hadvance : Reports Grammar.advance s fun _ t => t.Ready := by
    by_cases hend : s.current.kind = .endMark
    · unfold Reports Grammar.advance
      rw [if_pos hend]
      exact ⟨Grows.refl s, hs⟩
    · refine (advance hend).mono ?_
      rintro token t _ ⟨-, rfl⟩
      exact hs.next hend
  refine hadvance.bind ?_
  intro token t hst ht
  refine (Reports.loop (fun _ u => u.Ready) ht fun _ u _ hu => recoverRound hu).bind ?_
  intro _ u htu hu
  exact .position (.rangeBetween (Nat.le_trans hst.pos htu.pos) (.pure hu))

theorem record {d : Diagnostic} (hs : s.Valid) (hd : Reported d s) :
    Reports (record d) s fun _ t => t.Ready :=
  ⟨Grows.record d, hs, hd⟩

/-- An error is recorded in the state that the rule stopped in. -/
theorem recordRecover {d : Diagnostic} (hs : s.Valid) (hd : Reported d s) (a : α)
    {post : α → State → Prop} (hpost : ∀ t, t.Ready → post a t) :
    Reports (Grammar.record d >>= fun _ => Grammar.recover >>= fun _ => Pure.pure a) s post := by
  refine (record hs hd).bind ?_
  intro _ t _ ht
  refine (recover ht).bind ?_
  intro _ u _ hu
  exact Reports.pure (hpost u hu)

end Reports

/-- A part of a block was read. -/
def Parted (s : State) (part : BlockPart) (t : State) : Prop :=
  match part with
  | .stmt stmt => Stated s stmt t
  | .tail _ => t.Ready
  | .nothing => t.Ready

/-- A statement that must not stand in a block is an import, from its keyword to its semicolon. -/
theorem StmtAt.importing_of_not_allowed {T : Nat → Lexeme} {i j : Nat} {stmt : Stmt}
    (h : StmtAt T i j stmt) (hnot : stmt.allowedInBlock = false) :
    stmt.kind = .importing ∧ (T i).keyword? = some .importKey ∧
      (T (j - 1)).kind = .semicolon := by
  cases h with
  | expr _ _ _ halone =>
    have hyes : Expr.canStandAlone _ = false := hnot
    rw [halone] at hyes
    cases hyes
  | binding => cases hnot
  | function => cases hnot
  | returning => cases hnot
  | importResource h _ _ _ _ hsemi => exact ⟨rfl, h, hsemi⟩
  | importPath h _ _ _ hsemi => exact ⟨rfl, h, hsemi⟩

/-- A statement in the wrong place is reported from its first token to its last. -/
theorem Stated.reported {stmt : Stmt} (hs : s.Ready) (hst : Grows s t) (h : Stated s stmt t)
    (hread : StmtRead s stmt t) (hnot : stmt.allowedInBlock = false) :
    Reported ⟨.notAllowedInBlock stmt.kind, stmt.span⟩ t := by
  -- nothing was recorded inside the statement, so it ends behind all that was
  have hclean := h.2 hnot
  obtain ⟨hlt, hspan, hat⟩ := hread
  obtain ⟨hkind, himport, hsemi⟩ := (hat hclean).importing_of_not_allowed hnot
  rw [hspan, TokenRange.clamped_of_le (Nat.le_of_lt hlt)]
  refine (hs.orderly.of_clean hst hclean).record ?_ hlt (Nat.le_succ _)
  rw [hst.lexeme]
  exact ⟨hkind, hlt, himport, hsemi⟩

namespace Level

variable {g : Level}

theorem Accurate.blockPart (hg : g.Accurate) (hs : s.Ready) :
    Reports g.blockPart s (Parted s) := by
  unfold Level.blockPart
  refine .look ?_
  split
  · refine ((hg.statement hs true).and (hg.sound.statement hs.valid true)).bind ?_
    rintro (_ | stmt) t hst ⟨hstmt, hread⟩
    · obtain ⟨rfl, -⟩ := hread
      exact .pure hs
    · exact .pure (hstmt stmt rfl)
  · refine .position ((hg.expression hs).bind ?_)
    rintro (_ | e) t hst he
    · obtain ⟨rfl, -⟩ := he
      exact .pure hs
    · have ht := hst.valid hs.valid
      refine .isAt (fun _ => ?_) fun _ => .pure (he.2.ready ht)
      have hstmt : Reports (expressionStatement e s.pos) t (Stated s) :=
        reports_expressionStatement ht he.2 s.pos
      exact hstmt.map fun stmt u _ h => h

theorem Accurate.blockRound (hg : g.Accurate) (hs : s.Ready) (stmts : Array Stmt) :
    Reports (g.blockRound stmts) s (AfterRound (fun _ t => t.Ready) fun _ t => t.Ready) := by
  unfold Level.blockRound
  refine .look (.ite (fun _ => .pure hs) fun _ => ?_)
  refine ((hg.blockPart hs).attempt (hg.sound.blockPart hs.valid)).bind ?_
  -- after an error the state is the one that the part stopped in
  rintro (d | part) t hst h
  · exact .recordRecover (hst.valid hs.valid) h _ fun _ hu => hu
  · obtain ⟨hpart, hread⟩ := h
    cases part with
    | tail value => exact .pure hpart
    | nothing => exact .pure hpart
    | stmt stmt =>
      refine .ite (fun _ => .pure hpart.1) fun hnot => ?_
      have hd := hpart.reported hs hst hread (Bool.of_not_eq_true hnot)
      refine (Reports.record (hst.valid hs.valid) hd).bind ?_
      intro _ u _ hu
      exact .pure hu

theorem Accurate.blockTail (hg : g.Accurate) (hs : s.Ready) (found : Option Expr) :
    Reports (g.blockTail found) s fun _ t => t.Ready := by
  cases found with
  | some value => exact .pure hs
  | none =>
    refine (hg.expression hs).mono ?_
    rintro (_ | e) t hst he
    · obtain ⟨rfl, -⟩ := he
      exact hs
    · exact he.2.ready (hst.valid hs.valid)

theorem Accurate.blockBody (hg : g.Accurate) (hs : s.Ready) :
    Reports g.blockBody s (Braced s) := by
  unfold Level.blockBody
  refine (Reports.expect hs (by decide) _).bind ?_
  rintro opening t₁ h₁ ⟨hopen, rfl, rfl⟩
  rw [hs.valid.index_current]
  refine (Reports.loop (fun _ u => u.Ready) (hs.of_clean h₁ rfl)
    fun stmts u _ hu => hg.blockRound hu stmts).bind ?_
  rintro ⟨stmts, found⟩ t₂ h₂ hs₂
  refine (hg.blockTail hs₂ found).bind ?_
  intro tail t₃ h₃ hs₃
  refine (Reports.expect hs₃ (by decide) _).bind ?_
  rintro closing t₄ h₄ ⟨hclose, -, rfl⟩
  have hlex : t₃.next.lexeme = s.lexeme := (h₂.trans h₃).lexeme
  have hpos : s.pos + 1 ≤ t₃.pos := (h₂.trans h₃).pos
  refine .rangeFrom (.pure ⟨?_, ?_, hs₃.orderly.next, ?_, hclose⟩)
  · exact TokenRange.clamped_of_le (by rw [State.next_pos]; omega)
  · rw [State.next_pos]
    omega
  · rw [hlex]
    exact hopen

/-- Each rule of the level above runs a rule of this one, one level deeper. -/
theorem Accurate.above (hg : g.Accurate) : g.above.Accurate where
  sound := hg.sound.above
  unary s hs := by
    refine .nested hs (hg.operand (hs.withDepth (s.depth + 1))) ?_
    rintro (_ | e) t h _
    · obtain ⟨rfl, hno⟩ := h
      exact ⟨rfl, hno⟩
    · exact ⟨h.1, h.2.withDepth s.depth⟩
  binary s left least hs hleft := by
    have hdeeper : (s.withDepth (s.depth + 1)).Valid := hs
    refine .nested (hleft.ready hs)
      (hg.binaryChain hdeeper (hleft.withDepth (s.depth + 1)) least) ?_
    rintro e t ⟨hstart, he⟩ _
    exact ⟨hstart, he.withDepth s.depth⟩
  block s hs := by
    refine .nested hs (hg.blockBody (hs.withDepth (s.depth + 1))) ?_
    intro b t h _
    exact ⟨h.span, h.lt, h.orderly.withDepth s.depth, h.opening, h.closing⟩
  path s segment place hs hcolon := by
    have hcolon' : (s.withDepth (s.depth + 1)).Follows .doubleColon := hcolon
    refine .nested hs (hg.path.pathFrom (hs.withDepth (s.depth + 1)) hcolon' segment place) ?_
    intro p t h _
    exact h

theorem closed_accurate : closed.Accurate where
  sound := closed_sound
  unary _ hs := .tooDeep hs
  binary _ _ _ hs hleft := .tooDeep (hleft.ready hs)
  block _ hs := .tooDeep hs
  path _ _ _ hs _ := .tooDeep hs

theorem withRoom_accurate (room : Nat) : (withRoom room).Accurate := by
  induction room with
  | zero => exact closed_accurate
  | succ room ih => exact ih.above

end Level

end FrontEnd.Grammar
