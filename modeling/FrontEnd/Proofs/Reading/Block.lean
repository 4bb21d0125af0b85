import FrontEnd.Proofs.Reading.Statement

/-! What the rules for blocks read. A block goes on after an error, so what its rounds read is
only known if nothing was recorded; that every round but the last passes a token always holds. -/
namespace FrontEnd.Grammar

open Parse

/-- A part of a block was read. -/
def PartRead (s : State) (part : BlockPart) (t : State) : Prop :=
  match part with
  | .stmt stmt => StmtRead s stmt t
  | .tail e => s.current.keyword? = none ∧ ExprRead s (some e) t
  | .nothing => t = s ∧ NoStmt s

/-- The statements stand between two states: whatever items follow make a list of items with them
in front. -/
def StmtsRead (s : State) (stmts : Array Stmt) (t : State) : Prop :=
  t.errors = s.errors → ∀ j rest tail, ItemsAt s.lexeme t.pos j rest tail →
    ItemsAt s.lexeme s.pos j (stmts.toList ++ rest) tail

/-- The rounds of a block are over: its value was found, or there is no further part. -/
def StmtsDone (s : State) (found : Array Stmt × Option Expr) (t : State) : Prop :=
  match found.2 with
  | none => StmtsRead s found.1 t ∧ NoStmt t
  | some e => t.errors = s.errors → (s.lexeme t.pos).kind = .closeCurly →
      ItemsAt s.lexeme s.pos t.pos found.1.toList (some e)

theorem StmtsRead.push {s t u : State} {stmts : Array Stmt} {stmt : Stmt} (hst : Grows s t)
    (htu : Grows t u) (h : StmtsRead s stmts t) (hstmt : StmtRead t stmt u)
    (hallowed : stmt.allowedInBlock = true) : StmtsRead s (stmts.push stmt) u := by
  intro hclean j rest tail hrest
  have hat := hstmt.2.2 (hst.clean_right htu hclean)
  rw [hst.lexeme] at hat
  have hall := h (hst.clean_left htu hclean) j (stmt :: rest) tail (.stmt hat hallowed hrest)
  simpa using hall

theorem StmtsRead.close {s t u : State} {stmts : Array Stmt} {e : Expr} (hst : Grows s t)
    (htu : Grows t u) (h : StmtsRead s stmts t) (hkey : t.current.keyword? = none)
    (he : ExprRead t (some e) u) : StmtsDone s (stmts, some e) u := by
  intro hclean hclose
  have hat := he.2 (hst.clean_right htu hclean)
  have hkey' : (t.lexeme t.pos).keyword? = none := hkey
  rw [hst.lexeme] at hat hkey'
  have hall := h (hst.clean_left htu hclean) u.pos [] (some e) (.tail hkey' hat hclose)
  simpa using hall

/-- After an error inside a block or a program, recording it and recovering passes a token. -/
theorem ensures_recordRecover {s t : State} (hst : Grows s t) (ht : t.Valid)
    (hprogress : t.current.kind = .closeCurly ∨ t.current.kind = .endMark → s.pos < t.pos)
    (d : Diagnostic) {α : Type} (a : α) {post : α → State → Prop}
    (hpost : ∀ u, Grows t u → u.errors = t.errors ++ [d] → s.pos < u.pos → post a u) :
    Ensures (record d >>= fun _ => recover >>= fun _ => pure a) t post := by
  refine (Ensures.record d).bind ?_
  rintro _ t₁ ht₁ rfl
  refine (Ensures.recover (ht₁.valid ht)).bind ?_
  rintro _ u hu ⟨herr, hlt⟩
  refine Ensures.pure (hpost u (ht₁.trans hu) herr ?_)
  have hkind : ({ t with errors := t.errors ++ [d] } : State).current.kind = t.current.kind := rfl
  rw [hkind] at hlt
  have hsu : s.pos ≤ t.pos := hst.pos
  have htu : t.pos ≤ u.pos := hu.pos
  by_cases hc : t.current.kind = .closeCurly ∨ t.current.kind = .endMark
  · exact Nat.lt_of_lt_of_le (hprogress hc) htu
  · have hpass : t.pos < u.pos := hlt (fun h => hc (.inl h)) fun h => hc (.inr h)
    exact Nat.lt_of_le_of_lt hsu hpass

namespace Level

variable {g : Level} {s : State}

theorem Sound.blockPart (hg : g.Sound) (hs : s.Valid) :
    Ensures g.blockPart s (PartRead s) := by
  unfold Level.blockPart
  refine Ensures.current.bind ?_
  rintro token t _ ⟨rfl, rfl⟩
  cases hkey : t.current.keyword? with
  | some keyword =>
    refine (hg.statement hs true).bind ?_
    rintro (_ | stmt) u _ h
    · exact Ensures.pure h
    · exact Ensures.pure h
  | none =>
    refine Ensures.position.bind ?_
    rintro start t' _ ⟨rfl, rfl⟩
    refine (hg.expression hs).bind ?_
    rintro (_ | e) u hu he
    · exact Ensures.pure ⟨he.1, .inl he.2⟩
    · refine (Ensures.isAt .semicolon).bind ?_
      rintro b u' _ ⟨-, rfl⟩
      cases b with
      | true => exact (ensures_expressionStatement hu hkey he).map fun _ _ _ h => h
      | false => exact Ensures.pure ⟨hkey, he⟩

/-- A round of a block: another one follows only behind a token that was passed. -/
theorem Sound.blockRound (hg : g.Sound) {t : State} (hst : Grows s t) (ht : t.Valid)
    {stmts : Array Stmt} (hstmts : StmtsRead s stmts t) :
    Ensures (g.blockRound stmts) t
      (AfterRound (fun stmts' u => t.pos < u.pos ∧ StmtsRead s stmts' u) (StmtsDone s)) := by
  unfold Level.blockRound
  refine Ensures.current.bind ?_
  rintro token t' _ ⟨rfl, rfl⟩
  by_cases hend : t'.current.kind = .closeCurly ∨ t'.current.kind = .endMark
  · rw [if_pos hend]
    exact Ensures.pure ⟨hstmts, .inl (not_startsExpr hend)⟩
  · rw [if_neg hend]
    refine (hg.blockPart ht).attempt.bind ?_
    rintro (d | part) u hu h
    · refine ensures_recordRecover hu (hu.valid ht) ?_ d _ ?_
      · -- the token at the cursor is neither, so the cursor was moved
        intro hc
        refine Nat.lt_of_le_of_ne hu.pos ?_
        intro hpos
        have hsame : u.current = t'.current := by
          unfold State.current
          rw [hu.stream, hpos]
        rw [hsame] at hc
        exact hend hc
      · intro v huv herr hlt
        refine ⟨hlt, ?_⟩
        intro hclean
        rw [herr] at hclean
        exact absurd hclean ((hst.trans hu).record_ne d)
    · cases part with
      | tail e => exact Ensures.pure (hstmts.close hst hu h.1 h.2)
      | nothing =>
        obtain ⟨rfl, hno⟩ := h
        exact Ensures.pure ⟨hstmts, hno⟩
      | stmt stmt =>
        have hlt : t'.pos < u.pos := h.1
        by_cases hallowed : stmt.allowedInBlock = true
        · simp only [hallowed, if_true]
          exact Ensures.pure ⟨hlt, hstmts.push hst hu h hallowed⟩
        · simp only [hallowed]
          refine (Ensures.record _).bind ?_
          rintro _ v _ rfl
          refine Ensures.pure ⟨hlt, ?_⟩
          intro hclean
          exact absurd hclean ((hst.trans hu).record_ne _)

theorem Sound.blockTail (hg : g.Sound) {t : State} (hst : Grows s t) (ht : t.Valid)
    {found : Array Stmt × Option Expr} (h : StmtsDone s found t) :
    Ensures (g.blockTail found.2) t fun tail u =>
      u.errors = s.errors → (s.lexeme u.pos).kind = .closeCurly →
        ItemsAt s.lexeme s.pos u.pos found.1.toList tail := by
  obtain ⟨stmts, found⟩ := found
  cases found with
  | some e => exact Ensures.pure h
  | none =>
    obtain ⟨hstmts, hno⟩ := h
    refine (hg.expression ht).mono ?_
    rintro (_ | e) u hu he hclean hclose
    · obtain ⟨rfl, -⟩ := he
      simpa using hstmts hclean u.pos [] none (.nil hclose)
    · have hat := he.2 (hst.clean_right hu hclean)
      rcases hno with hno | ⟨kind, hkind, hno⟩
      · exact absurd hat.startsExpr hno
      · rw [hst.lexeme] at hat hkind hno
        have hall := hstmts (hst.clean_left hu hclean) u.pos [] (some e)
          (.functionTail hkind hno hat hclose)
        simpa using hall

theorem Sound.blockBody (hg : g.Sound) (hs : s.Valid) :
    Ensures g.blockBody s (BlockRead s) := by
  unfold Level.blockBody
  refine (Ensures.expect (by decide) _).bind ?_
  rintro opening t ht ⟨hopen, rfl, rfl⟩
  rw [hs.index_current]
  refine (Ensures.loop (StmtsRead s.next) (ht.valid hs) ?_
    fun _ u hu hv h => hg.blockRound hu hv h).bind ?_
  · intro _ j rest tail hrest
    simpa using hrest
  · rintro found u hu hdone
    refine (hg.blockTail hu (hu.valid (ht.valid hs)) hdone).bind ?_
    rintro tail v hv htail
    refine (Ensures.expect (by decide) _).bind ?_
    rintro closing w hw ⟨hclose, -, rfl⟩
    refine (Ensures.rangeFrom _).bind ?_
    rintro span w' _ ⟨rfl, rfl⟩
    have hpos : s.pos + 1 ≤ v.pos := (hu.trans hv).pos
    refine Ensures.pure ⟨?_, rfl, ?_⟩
    · show s.pos < v.pos + 1
      omega
    · intro hclean
      have hclose' : (s.lexeme v.pos).kind = .closeCurly := by
        rw [← show v.lexeme = s.lexeme from (hu.trans hv).lexeme]
        exact hclose
      exact .mk hopen (htail hclean hclose') hclose'

end Level

end FrontEnd.Grammar
