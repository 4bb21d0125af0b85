import FrontEnd.Program
import FrontEnd.Proofs.Reading.Block

/-! What the rules read at every depth, and what a whole program reads. The contracts of a level
hold of the level above it, because each of its rules runs one level deeper; where no level is left
the rules have no value, so the contracts hold at every level. -/
namespace FrontEnd.Grammar

open Parse

variable {α : Type} {s : State}

/-- A rule one level deeper, in terms of states with a given depth. -/
theorem Ensures.nested_withDepth {p : Parse α} {post post' : α → State → Prop}
    (h : Ensures p (s.withDepth (s.depth + 1)) post')
    (hpost : ∀ a t, post' a t → t.depth = s.depth + 1 → post a (t.withDepth s.depth)) :
    Ensures (Grammar.nested p) s post := by
  refine Ensures.nested ?_
  intro _
  refine h.mono ?_
  intro a t ht ha
  have hdepth : t.depth = s.depth + 1 := ht.depth
  have hback := hpost a t ha hdepth
  rw [hdepth]
  exact hback

/-- A rule at the depth of a state, from the rule at every level. -/
theorem Ensures.atDepth {rule : Level → Parse α} {post : α → State → Prop}
    (h : ∀ room, Ensures (rule (.withRoom room)) s post) :
    Ensures (Grammar.atDepth rule) s post :=
  h (maxDepth - s.depth)

theorem run_nested {p : Parse α} {a : α} {t : State} (hd : s.depth < maxDepth)
    (h : p (s.withDepth (s.depth + 1)) = .ok a t) :
    nested p s = .ok a (t.withDepth (t.depth - 1)) := by
  unfold nested
  rw [if_neg (Nat.not_le_of_lt hd)]
  have h' : p { s with depth := s.depth + 1 } = .ok a t := h
  simp only [h']
  rfl

namespace Level

theorem Sound.above {g : Level} (hg : g.Sound) : g.above.Sound where
  unary s hs := by
    refine Ensures.nested_withDepth (hg.operand (s := s.withDepth (s.depth + 1)) hs) ?_
    rintro (_ | u) t h _
    · obtain ⟨rfl, hno⟩ := h
      exact ⟨rfl, hno⟩
    · exact h.withDepth s.depth
  binary s left least hs := by
    have hunary : ∀ t, t.Valid → t.depth = s.depth + 1 →
        Ensures g.unary t fun u? t' => ∀ u, u? = some u → OperandRead t u t' := by
      intro s hs _
      refine (hg.unary s hs).mono ?_
      rintro u? t _ h u rfl
      exact h
    have hclimbs : g.Climbs OperandRead (s.depth + 1) :=
      { forward := fun s u t h => h.1.pos
        unary := hunary
        binary := fun t left least ht _ => hg.binary t left least ht }
    refine Ensures.nested_withDepth
      (hclimbs.binaryChain (s := s.withDepth (s.depth + 1)) hs rfl left least) ?_
    intro e t h _
    exact h.withDepth (fun _ _ _ d h => h.withDepth d) s.depth
  block s hs := by
    refine Ensures.nested_withDepth (hg.blockBody (s := s.withDepth (s.depth + 1)) hs) ?_
    intro b t h _
    exact h
  path s segment place hs := by
    refine Ensures.nested_withDepth
      (hg.pathFrom (s := s.withDepth (s.depth + 1)) hs segment place) ?_
    intro p t h _
    exact h

theorem withRoom_sound (room : Nat) : (withRoom room).Sound := by
  induction room with
  | zero => exact closed_sound
  | succ room ih => exact ih.above

/-- Where nothing starts an expression there is no operand, and no level below is asked for one. -/
theorem run_operand_none {g : Level} (h : ¬ StartsExpr (s.lexeme s.pos)) :
    g.operand s = .ok none s := by
  simp only [StartsExpr, not_or, Bool.not_eq_true, Option.isSome_eq_false_iff,
    Option.isNone_iff_eq_none] at h
  obtain ⟨hliteral, hword, hparen, hcurly, hunary⟩ := h
  have hprimary : g.primary s = .ok none s := by
    have hliteral' : LiteralKind.ofLexeme? s.current.toLexeme = none := hliteral
    have hword' : s.current.kind ≠ .word := hword
    have hparen' : s.current.kind ≠ .openParen := hparen
    have hcurly' : s.current.kind ≠ .openCurly := hcurly
    unfold primary
    rw [run_bind run_current]
    simp only [hliteral']
    rfl
  have hunary' : Operation.unary? s.current.toLexeme = none := hunary
  unfold operand
  rw [run_bind run_current]
  simp only [hunary']
  unfold called
  rw [run_bind hprimary]
  rfl

end Level

/-- A level can be opened, and nothing that starts an expression is there. -/
theorem run_expression_none (hd : s.depth < maxDepth) (h : ¬ StartsExpr (s.lexeme s.pos)) :
    (Level.withRoom (maxDepth - s.depth)).expression s = .ok none s := by
  obtain ⟨room, hroom⟩ : ∃ room, maxDepth - s.depth = room + 1 :=
    ⟨maxDepth - s.depth - 1, by omega⟩
  rw [hroom]
  have hoperand : (Level.withRoom room).operand (s.withDepth (s.depth + 1)) =
      .ok none (s.withDepth (s.depth + 1)) := Level.run_operand_none h
  have hunary : (Level.withRoom (room + 1)).unary s = .ok none s := run_nested hd hoperand
  unfold Level.expression
  rw [run_bind hunary]
  rfl

/-- The statements stand between two states of a program. -/
def BodyRead (s : State) (stmts : Array Stmt) (t : State) : Prop :=
  t.errors = s.errors → ∀ j rest, ProgramAt s.lexeme t.pos j rest →
    ProgramAt s.lexeme s.pos j (stmts.toList ++ rest)

theorem ensures_statement (hs : s.Valid) (inBlock : Bool) :
    Ensures (statement inBlock) s fun stmt? t =>
      match stmt? with
      | none => t = s ∧ NoStmt s
      | some stmt => StmtRead s stmt t :=
  Ensures.atDepth fun room => (Level.withRoom_sound room).statement hs inBlock

/-- An error at a closing brace comes from behind another token: the brace itself starts no
statement, and where a level may be opened that is seen without an error. -/
theorem pos_lt_of_statement_error {t : State} {inBlock : Bool} {d : Diagnostic} (hs : s.Valid)
    (hd : s.depth < maxDepth) (hend : s.current.kind ≠ .endMark)
    (hrun : statement inBlock s = .error d t)
    (hc : t.current.kind = .closeCurly ∨ t.current.kind = .endMark) : s.pos < t.pos := by
  have hst : Grows s t := (ensures_statement hs inBlock).error hrun
  refine Nat.lt_of_le_of_ne hst.pos ?_
  intro hpos
  have hsame : t.current = s.current := by
    unfold State.current
    rw [hst.stream, hpos]
  rw [hsame] at hc
  have hclose : s.current.kind = .closeCurly := hc.resolve_right hend
  have hkey : s.current.keyword? = none := by
    unfold Lexeme.keyword?
    rw [if_neg (by rw [hclose]; decide)]
  have hnone : (Level.withRoom (maxDepth - s.depth)).statement inBlock s = .ok none s := by
    unfold Level.statement
    rw [run_bind run_current]
    simp only [hkey]
    rw [run_bind run_position, run_bind (run_expression_none hd (not_startsExpr (.inl hclose)))]
    rfl
  rw [statement, atDepth, hnone] at hrun
  cases hrun

/-- A round of a program: another one follows only behind a token that was passed. -/
theorem ensures_programRound {t : State} (hst : Grows s t) (ht : t.Valid)
    (hd : t.depth < maxDepth) {stmts : Array Stmt} (hstmts : BodyRead s stmts t) :
    Ensures (programRound stmts) t
      (AfterRound (fun stmts' u => t.pos < u.pos ∧ BodyRead s stmts' u) (BodyRead s)) := by
  unfold programRound
  refine Ensures.hasTokens.bind ?_
  rintro b t' _ ⟨hb, rfl⟩
  cases b with
  | false => exact Ensures.pure hstmts
  | true =>
    have hend : t'.current.kind ≠ .endMark := hb.mp rfl
    refine (ensures_statement ht false).attempt.bind ?_
    rintro (d | stmt?) u hu h
    · refine ensures_recordRecover hu (hu.valid ht)
        (pos_lt_of_statement_error ht hd hend h) d _ ?_
      intro v huv herr hlt
      refine ⟨hlt, ?_⟩
      intro hclean
      rw [herr] at hclean
      exact absurd hclean ((hst.trans hu).record_ne d)
    · cases stmt? with
      | none =>
        obtain ⟨rfl, -⟩ := h
        exact Ensures.pure hstmts
      | some stmt =>
        refine Ensures.pure ⟨h.1, ?_⟩
        intro hclean j rest hrest
        have hat := h.2.2 (hst.clean_right hu hclean)
        rw [hst.lexeme] at hat
        have hall := hstmts (hst.clean_left hu hclean) j (stmt :: rest) (.cons hat hrest)
        simpa using hall

/-- A program that is read without a diagnostic stands in the tokens, up to the end mark. -/
theorem ensures_program (hs : s.Valid) (hd : s.depth < maxDepth) :
    Ensures program s fun body t =>
      t.errors = s.errors → ProgramAt s.lexeme s.pos t.pos body ∧ t.current.kind = .endMark := by
  unfold program
  have hstart : BodyRead s #[] s := by
    intro _ j rest hrest
    simpa using hrest
  have hloop : Ensures (loop programRound #[]) s (BodyRead s) := by
    refine Ensures.loop (BodyRead s) hs hstart ?_
    intro stmts t hst ht hstmts
    exact ensures_programRound hst ht (by rw [hst.depth]; exact hd) hstmts
  refine hloop.bind ?_
  intro stmts t hst hstmts
  refine Ensures.current.bind ?_
  rintro token t' _ ⟨rfl, rfl⟩
  by_cases hend : t'.current.kind = .endMark
  · rw [if_pos hend]
    refine Ensures.pure ?_
    intro hclean
    have hend' : (s.lexeme t'.pos).kind = .endMark := by
      rw [← hst.lexeme]
      exact hend
    have hall := hstmts hclean t'.pos [] (.nil hend')
    exact ⟨by simpa using hall, hend⟩
  · rw [if_neg hend]
    refine (Ensures.diagnosticHere _).bind ?_
    rintro d u _ ⟨rfl, rfl⟩
    refine (Ensures.record _).bind ?_
    rintro _ v _ rfl
    refine Ensures.pure ?_
    intro hclean
    exact absurd hclean (hst.record_ne _)

theorem State.valid_ofTokens (tokens : List Token) : (State.ofTokens tokens).Valid :=
  Nat.zero_le _

theorem State.depth_ofTokens_lt (tokens : List Token) :
    (State.ofTokens tokens).depth < maxDepth := by
  show 0 < 64
  decide

end FrontEnd.Grammar

namespace FrontEnd.Program

open Grammar

theorem body_ofBody (body : List Stmt) : (ofBody body).body = body := by
  unfold ofBody
  split <;> rfl

/-- A program that is accepted stands in the tokens before the first end mark. -/
theorem programAt_of_ofTokens {tokens : List Token} {program : Program}
    (h : ofTokens tokens = .ok program) :
    ProgramAt (State.ofTokens tokens).lexeme 0 (TokenStream.ofTokens tokens).limit
      program.body := by
  have hprogram := ensures_program (State.valid_ofTokens tokens) (State.depth_ofTokens_lt tokens)
  unfold ofTokens at h
  cases hrun : Grammar.program (.ofTokens tokens) with
  | fault f t => exact absurd hrun (hprogram.no_fault f t)
  | error d t =>
    rw [hrun] at h
    cases h
  | ok body t =>
    simp only [hrun] at h
    split at h
    · rename_i hclean
      cases h
      obtain ⟨hgrows, hpost⟩ := hprogram.ok hrun
      obtain ⟨hat, hend⟩ := hpost (List.isEmpty_iff.mp hclean)
      have hvalid : t.pos ≤ t.stream.limit := hgrows.valid (State.valid_ofTokens tokens)
      have hlimit : t.stream.limit ≤ t.pos := by
        refine Nat.le_of_not_lt ?_
        intro hlt
        exact TokenStream.kind_of_lt_limit hlt hend
      have hpos : t.pos = (TokenStream.ofTokens tokens).limit := by
        rw [Nat.le_antisymm hvalid hlimit, hgrows.stream]
        rfl
      rw [body_ofBody, ← hpos]
      exact hat
    · cases h

end FrontEnd.Program
