import FrontEnd.Proofs.Acceptance.Statement

/-! The rules for blocks read every block that stands in the tokens. A block records the
diagnostics of its statements and goes on, so a want of levels inside it is found among the
recorded ones. -/
namespace FrontEnd.Grammar

open Parse

variable {α β : Type} {bad : Diagnostic → Prop} {s t u : State} {j : Nat}

/-- What was recorded stays. -/
theorem blames_record {d : Diagnostic} {next : Unit → Parse β} (hbad : bad d)
    (hkeeps : ∀ a, Keeps (next a)) : ((record d >>= next) s).Blames bad := by
  refine .inr ⟨d, ?_, hbad⟩
  exact ((hkeeps ()).kept { s with errors := s.errors ++ [d] }).subset (by simp)

/-- A rule whose diagnostic is handed over, and recorded if it is `bad`. -/
theorem Achieves.attempt_bind {p : Parse α} {next : Except Diagnostic α → Parse β} {a : α} {b : β}
    (h : Achieves bad p s a t) (hnext : t.Valid → Achieves bad (next (.ok a)) t b u)
    (herror : ∀ d t, bad d → (next (.error d) t).Blames bad) (hkeeps : ∀ r, Keeps (next r)) :
    Achieves bad (attempt p >>= next) s b u := by
  rcases h with ⟨hrun, ht⟩ | ⟨d, t', hrun, hbad⟩ | ⟨d, hd, hbad⟩
  · have hattempt : attempt p s = .ok (.ok a) t := by
      simp only [attempt, hrun]
    exact Achieves.step hattempt (hnext ht)
  · have hattempt : attempt p s = .ok (.error d) t' := by
      simp only [attempt, hrun]
    refine .inr ?_
    rw [run_bind hattempt]
    exact herror d t' hbad
  · have hattempt : (attempt p s).state.errors = (p s).state.errors := by
      unfold attempt
      cases p s <;> rfl
    have hkept : Achieves bad (attempt p) s (.ok a) t :=
      .inr (.inr ⟨d, by rw [hattempt]; exact hd, hbad⟩)
    exact hkept.bind hnext hkeeps

theorem kind_ne_of_startsExpr {lexeme : Lexeme} (h : StartsExpr lexeme) :
    ¬ (lexeme.kind = .closeCurly ∨ lexeme.kind = .endMark) :=
  fun hk => not_startsExpr hk h

/-- What the rounds of a block go on with behind a part that is allowed in it. -/
def BlockPart.round (acc : Array Stmt) :
    BlockPart → Round (Array Stmt) (Array Stmt × Option Expr)
  | .tail value => .done (acc, some value)
  | .nothing => .done (acc, none)
  | .stmt s => .again (acc.push s)

/-- A statement starts neither with the end of a block nor with that of the stream. -/
theorem StmtAt.kind_ne {T : Nat → Lexeme} {i : Nat} {stmt : Stmt} (h : StmtAt T i j stmt) :
    ¬ ((T i).kind = .closeCurly ∨ (T i).kind = .endMark) := by
  have hword : (T i).kind = .word → ¬ ((T i).kind = .closeCurly ∨ (T i).kind = .endMark) := by
    intro hk
    rw [hk]
    decide
  cases h with
  | expr _ he _ _ => exact kind_ne_of_startsExpr he.startsExpr
  | binding hkey _ _ _ _ _ _ => exact hword (Lexeme.kind_eq_word_of_keyword? hkey)
  | function hheader _ _ => exact hword hheader.kind_eq_word
  | returning hkey _ _ => exact hword (Lexeme.kind_eq_word_of_keyword? hkey)
  | importResource hkey _ _ _ _ _ => exact hword (Lexeme.kind_eq_word_of_keyword? hkey)
  | importPath hkey _ _ _ _ => exact hword (Lexeme.kind_eq_word_of_keyword? hkey)

namespace Level

variable {g : Level} [g.Keeps]

/-- What a round of a block does with the part it has read. -/
instance keeps_afterPart (stmts : Array Stmt) (part? : Except Diagnostic BlockPart) :
    Grammar.Keeps (match part? with
      | .ok (.tail value) => pure (.done (stmts, some value))
      | .ok .nothing => pure (.done (stmts, none))
      | .ok (.stmt s) =>
        if s.allowedInBlock then pure (.again (stmts.push s))
        else do
          record ⟨.notAllowedInBlock s.kind, s.span⟩
          pure (.again stmts)
      | .error d => do
        record d
        recover
        pure (.again stmts) : Parse (Round (Array Stmt) (Array Stmt × Option Expr))) := by
  rcases part? with d | part
  · infer_instance
  · cases part <;> infer_instance

omit [g.Keeps] in
/-- A round of a block goes by the part that it reads. -/
theorem achieves_blockRound {part : BlockPart} {acc : Array Stmt}
    (hopen : ¬ (s.current.kind = .closeCurly ∨ s.current.kind = .endMark))
    (hpart : Achieves bad g.blockPart s part t)
    (hallowed : ∀ stmt, part = .stmt stmt → stmt.allowedInBlock = true) :
    Achieves bad (g.blockRound acc) s (part.round acc) t := by
  unfold Level.blockRound
  refine Achieves.step run_current ?_
  rw [if_neg hopen]
  refine hpart.attempt_bind ?_ ?_ (keeps_afterPart acc)
  · intro ht
    cases part with
    | tail value => exact Achieves.pure ht
    | nothing => exact Achieves.pure ht
    | stmt stmt =>
      simp only [hallowed stmt rfl, if_true]
      exact Achieves.pure ht
  · intro d t hbad
    exact blames_record hbad inferInstance

theorem Complete.blockPart_stmt (hg : g.Complete bad) (hs : s.Valid) {stmt : Stmt}
    (h : StmtAt s.lexeme s.pos j stmt) :
    Achieves bad g.blockPart s (.stmt stmt) (s.moveTo j) := by
  unfold Level.blockPart
  refine Achieves.step run_current ?_
  cases hkey : s.current.keyword? with
  | some keyword =>
    refine (hg.statement hs h true).bind Achieves.pure ?_
    rintro (_ | stmt) <;> infer_instance
  | none =>
    have hkey' : (s.lexeme s.pos).keyword? = none := hkey
    have hother : ∀ {keyword : Keyword}, (s.lexeme s.pos).keyword? = some keyword → False := by
      intro keyword h
      rw [hkey'] at h
      cases h
    cases h with
    | @expr _ k _ _ he hsemi halone =>
      refine Achieves.step run_position ?_
      refine (hg.expression hs he).bind ?_ (by rintro (_ | e) <;> infer_instance)
      intro hj
      have hhere : (s.moveTo k).current.kind = .semicolon := hsemi
      refine Achieves.step (run_isAt_true hhere) ?_
      exact (achieves_expressionStatement hj hsemi halone).map
    | binding hlet _ _ _ _ _ _ => exact (hother hlet).elim
    | returning hreturn _ _ => exact (hother hreturn).elim
    | importResource himport _ _ _ _ _ => exact (hother himport).elim
    | importPath himport _ _ _ _ => exact (hother himport).elim
    | function hheader _ _ =>
      have hkind := hheader.functionKind?
      rw [hkey'] at hkind
      cases hkind

theorem Complete.blockPart_tail (hg : g.Complete bad) (hs : s.Valid) {e : Expr}
    (hkey : (s.lexeme s.pos).keyword? = none) (he : ExprAt s.lexeme s.pos j e)
    (hclose : (s.lexeme j).kind = .closeCurly) :
    Achieves bad g.blockPart s (.tail e) (s.moveTo j) := by
  have hkey' : s.current.keyword? = none := hkey
  unfold Level.blockPart
  refine Achieves.step run_current ?_
  simp only [hkey']
  refine Achieves.step run_position ?_
  refine (hg.expression hs he).bind ?_ (by rintro (_ | e) <;> infer_instance)
  intro hj
  have hclose' : (s.moveTo j).current.kind = .closeCurly := hclose
  refine Achieves.step (run_isAt_false (by rw [hclose']; decide)) ?_
  exact Achieves.pure hj

omit [g.Keeps] in
/-- A function that declares nothing is no part of a block between its statements. -/
theorem achieves_blockPart_nothing (hs : s.Valid) {kind : FunctionKind}
    (hkind : (s.lexeme s.pos).keyword?.bind Keyword.functionKind? = some kind)
    (hn : ¬ DeclaresAt s.lexeme s.pos) : Achieves bad g.blockPart s .nothing s := by
  obtain ⟨keyword, hkey, hfunction⟩ := Option.bind_eq_some_iff.mp hkind
  have hkey' : s.current.keyword? = some keyword := hkey
  have hrun : g.statement true s = .ok none s := by
    rw [run_statement_keyword hkey (statementForm?_of_functionKind? hfunction)]
    exact run_functionStatement_none hs hkind hn
  unfold Level.blockPart
  refine Achieves.step run_current ?_
  simp only [hkey']
  exact Achieves.step hrun (Achieves.pure hs)

/-- The items of a block are read by its rounds, up to a value that only `blockTail` reads. -/
theorem Complete.blockRounds (hg : g.Complete bad) {tail : Option Expr} (stmts : List Stmt) :
    ∀ {s : State} (acc : Array Stmt) {rounds : Nat}, s.Valid →
      ItemsAt s.lexeme s.pos j stmts tail → s.remaining < rounds →
      ∃ m found, Achieves bad (loopFor g.blockRound rounds acc) s (acc ++ stmts.toArray, found)
          (s.moveTo m) ∧
        ((s.moveTo m).Valid → Achieves bad (g.blockTail found) (s.moveTo m) tail (s.moveTo j)) := by
  induction stmts with
  | nil =>
    intro s acc rounds hs h hr
    obtain ⟨rounds, rfl⟩ := Nat.exists_eq_succ_of_ne_zero (Nat.ne_zero_of_lt hr)
    rw [Array.append_empty]
    cases h with
    | nil hclose =>
      have hclose' : s.current.kind = .closeCurly := hclose
      refine ⟨s.pos, none, Achieves.done ?_ inferInstance, ?_⟩
      · unfold Level.blockRound
        refine Achieves.step run_current ?_
        rw [if_pos (.inl hclose')]
        exact Achieves.pure hs
      · intro _
        exact hg.expression_absent hs (not_startsExpr (.inl hclose))
    | tail hkey he hclose =>
      have hround : Achieves bad (g.blockRound acc) s (.done (acc, some _)) (s.moveTo j) :=
        achieves_blockRound (kind_ne_of_startsExpr he.startsExpr)
          (hg.blockPart_tail hs hkey he hclose) (by simp)
      exact ⟨j, _, hround.done inferInstance, Achieves.pure⟩
    -- a function that declares nothing is left to `blockTail`; the rounds end in front of it
    | functionTail hkind hn he hclose =>
      have hround : Achieves bad (g.blockRound acc) s (.done (acc, none)) s :=
        achieves_blockRound (kind_ne_of_startsExpr he.startsExpr)
          (achieves_blockPart_nothing hs hkind hn) (by simp)
      exact ⟨s.pos, none, hround.done inferInstance, fun _ => hg.expression hs he⟩
  | cons stmt stmts ih =>
    intro s acc rounds hs h hr
    obtain ⟨rounds, rfl⟩ := Nat.exists_eq_succ_of_ne_zero (Nat.ne_zero_of_lt hr)
    cases h with
    | @stmt _ k _ _ _ _ hstmt hallowed hstmts =>
      have hopen := hstmt.kind_ne
      have hround : Achieves bad (g.blockRound acc) s (.again (acc.push stmt)) (s.moveTo k) :=
        achieves_blockRound hopen (hg.blockPart_stmt hs hstmt) (by rintro _ ⟨⟩; exact hallowed)
      -- the items behind the statement can only be read from a valid state
      by_cases hk : (s.moveTo k).Valid
      · have hend : s.current.kind ≠ .endMark := fun hk => hopen (.inr hk)
        obtain ⟨m, found, hrest, htail⟩ := ih (s := s.moveTo k) (acc.push stmt) hk hstmts
          (remaining_moveTo_lt hs hend hr hstmt.lt)
        refine ⟨m, found, ?_, htail⟩
        refine hround.again ?_ inferInstance
        intro _
        simpa using hrest
      · exact ⟨k, none, hround.again (fun hk' => absurd hk' hk) inferInstance,
          fun hk' => absurd hk' hk⟩

theorem Complete.blockBody (hg : g.Complete bad) (hs : s.Valid) {b : Block}
    (h : BlockAt s.lexeme s.pos j b) : Achieves bad g.blockBody s b (s.moveTo j) := by
  obtain ⟨hopen, hitems, hclose⟩ := h
  rename_i j stmts tail
  have hopen' : s.current.kind = .openCurly := hopen
  have hnext : (s.moveTo (s.pos + 1)).Valid := State.Valid.pass hs hopen (by decide)
  obtain ⟨m, found, hrounds, htail⟩ := hg.blockRounds stmts #[] hnext hitems (Nat.lt_succ_self _)
  rw [Array.empty_append] at hrounds
  unfold Level.blockBody
  refine Achieves.step (run_expect (by decide) hopen' _) ?_
  refine Achieves.bind hrounds ?_ inferInstance
  intro hm
  refine (htail hm).bind ?_ inferInstance
  intro hj
  refine Achieves.step (run_expect (s := s.moveTo j) (by decide) hclose _) ?_
  rw [hs.index_current]
  exact Achieves.step rfl (Achieves.pure (hj.pass hclose (by decide)))

end Level

end FrontEnd.Grammar
