import FrontEnd.Proofs.Acceptance.Statement
import FrontEnd.Proofs.Diagnosis.Expression

/-! Diagnostics of statements. A statement that must not stand in a block is an import, and reading
one records nothing. -/
namespace FrontEnd.Grammar

open Parse

variable {s t : State}

/-- A statement was read that may stand in a block, or nothing was recorded. -/
def Stated (s : State) (stmt : Stmt) (t : State) : Prop :=
  t.Ready ∧ (stmt.allowedInBlock = false → t.errors = s.errors)

theorem Stated.of_allowed {stmt : Stmt} (ht : t.Ready) (h : stmt.allowedInBlock = true) :
    Stated s stmt t := by
  refine ⟨ht, fun hnot => ?_⟩
  rw [h] at hnot
  cases hnot

/-- The semicolon at the end of a statement, whose range starts at `start`. -/
theorem reports_statementEnd (hs : s.Ready) {start : Nat} {build : TokenRange → Stmt}
    {post : Stmt → State → Prop}
    (hpost : ∀ span, s.next.Ready → post (build span) s.next) :
    Reports (do
      let _ ← expectSemicolon
      let span ← rangeFrom start
      pure (build span)) s post := by
  refine (Reports.expectSemicolon hs).bind ?_
  rintro _ t hst ⟨-, rfl⟩
  exact .rangeFrom (.pure (hpost _ (hs.of_clean hst rfl)))

/-- An expression that cannot be a statement is reported only in front of a semicolon. -/
theorem reports_expressionStatement {e : Expr} (hs : s.Valid) (he : Settled e s) (start : Nat) :
    Reports (expressionStatement e start) s (Stated t) := by
  have hready := he.ready hs
  unfold expressionStatement
  refine .look (.ite (fun hsemi => ?_) fun hsemi => .ite (fun halone => ?_) fun halone => ?_)
  · exact .failHere hready ⟨s.pos, rfl, rfl, hsemi⟩
  · -- the range may end before the cursor, but what was recorded ends before it does
    refine .fail he.orderly ?_ (Nat.le_refl _) (Nat.le_succ_of_le he.stop_le)
    exact ⟨he.nonempty, he.shown halone, s.pos, he.stop_le, not_not.mp hsemi, he.closed⟩
  · exact reports_statementEnd hready fun span hnext =>
      .of_allowed hnext (Bool.of_not_eq_false halone)

theorem reports_declarationHeader (hs : s.Ready) {kind : FunctionKind}
    (hkind : s.current.keyword?.bind Keyword.functionKind? = some kind) :
    Reports declarationHeader s fun _ _ => True := by
  unfold declarationHeader
  refine (reports_signature hs hkind).bind ?_
  rintro header t hst ⟨-, hstart, hclean, hlt, hat⟩
  have ht := hs.of_clean hst hclean
  cases hname : header.name with
  | none =>
    rw [hname] at hat
    rw [hstart]
    -- the header was read to its end, but what is reported stands at its beginning
    refine .fail (hs.orderly.of_clean hst hclean) ?_ (Nat.le_succ _) ?_
    · rw [hst.lexeme]
      exact ⟨s.pos, rfl, hat.keyword, hat.openParen⟩
    · show s.pos + 1 + 1 ≤ t.pos + 1
      omega
  | some name =>
    refine .look (.ite (fun _ => .pure trivial) fun hopen => ?_)
    cases header.kind with
    | compute => exact .failHere ht ⟨t.pos, rfl, rfl⟩
    | action =>
      have harrow : t.Follows .arrow := by
        rw [State.Follows, hst.lexeme]
        exact hat.arrow
      refine .failBehind ht harrow fun i hi hk => ⟨i, rfl, hk, ?_⟩
      rw [← hi]
      exact hopen

theorem reports_resourceImport (hs : s.Ready) (start : Nat) :
    Reports (resourceImport start) s fun _ t => t.Ready ∧ t.errors = s.errors := by
  unfold resourceImport
  refine (Reports.expect hs (by decide) _).bind ?_
  rintro resource t₁ h₁ ⟨-, -, rfl⟩
  have hs₁ := hs.of_clean h₁ rfl
  refine .look (.ite (fun has => ?_) fun has => ?_)
  · exact .failHere hs₁ ⟨s.next.pos, rfl, rfl, beq_eq_false_iff_ne.mp has⟩
  · have hkey : s.next.current.keyword? = some .asKey :=
      beq_iff_eq.mp (Bool.of_not_eq_false has)
    have hend : s.next.current.kind ≠ .endMark := kind_ne_endMark_of_keyword? hkey
    refine (Reports.advance hend).bind ?_
    rintro token t₂ h₂ ⟨-, rfl⟩
    have hs₂ := hs₁.of_clean h₂ rfl
    refine (Reports.expectName hs₂ _).bind ?_
    rintro x t₃ h₃ ⟨-, rfl⟩
    exact reports_statementEnd (hs₂.of_clean h₃ rfl) fun _ hnext => ⟨hnext, rfl⟩

namespace Level

variable {g : Level}

theorem Accurate.bindingFrom (hg : g.Accurate) (hs : s.Ready) (start : Nat) (mutable : Bool) :
    Reports (g.bindingFrom start mutable) s (Stated t) := by
  unfold Level.bindingFrom
  refine (Reports.expectName hs _).bind ?_
  rintro x t₁ h₁ ⟨-, rfl⟩
  have hs₁ := hs.of_clean h₁ rfl
  refine (Reports.expect hs₁ (by decide) _).bind ?_
  rintro token t₂ h₂ ⟨-, -, rfl⟩
  have hs₂ := hs₁.of_clean h₂ rfl
  refine (hg.requiredExpression hs₂ _).bind ?_
  -- the blocks inside the value may have recorded something
  rintro value t₃ h₃ ⟨-, hvalue⟩
  exact reports_statementEnd (hvalue.ready (h₃.valid hs₂.valid))
    fun _ hend => .of_allowed hend rfl

theorem Accurate.bindingStatement (hg : g.Accurate) (hs : s.Ready)
    (hend : s.current.kind ≠ .endMark) : Reports g.bindingStatement s (Stated t) := by
  have hnext := hs.next hend
  unfold Level.bindingStatement
  refine (Reports.advance hend).bind ?_
  rintro opening t₁ h₁ ⟨-, rfl⟩
  refine .ite (fun hvar => ?_) fun _ => hg.bindingFrom hnext _ false
  have hkey : s.next.current.keyword? = some .varKey := beq_iff_eq.mp hvar
  have hend' : s.next.current.kind ≠ .endMark := kind_ne_endMark_of_keyword? hkey
  refine (Reports.advance hend').bind ?_
  rintro token t₂ h₂ ⟨-, rfl⟩
  exact hg.bindingFrom (hnext.next hend') _ true

/-- A function declaration behind its header. -/
theorem Accurate.declared (hg : g.Accurate) (ht : t.Ready) {header : Signature} (name : Ident)
    (hstart : header.start ≤ t.pos) :
    Reports (g.declared header name) t (IfSome (Stated s)) := by
  unfold Level.declared
  refine (hg.block t ht).bind ?_
  intro body u hu hbody
  refine .ite (fun _ => hbody.fail_tail) fun _ => ?_
  have hstop : body.span.stop = u.pos := by rw [hbody.span]
  have hlt := hbody.lt
  refine .rangeBetween (by omega) (.pure_some ?_)
  exact .of_allowed (.of_orderly (hu.valid ht.valid) hbody.orderly (Nat.le_succ _)) rfl

/-- A header that does not fit is an error outside of a block only, and it is that of the header. -/
theorem Accurate.functionStatement (hg : g.Accurate) (hs : s.Ready) {kind : FunctionKind}
    (hkind : s.current.keyword?.bind Keyword.functionKind? = some kind) (inBlock : Bool) :
    Reports (g.functionStatement inBlock) s (IfSome (Stated s)) := by
  have hheader := ensures_declarationHeader hs.valid hkind
  cases hrun : declarationHeader s with
  | fault f t => exact absurd hrun (hheader.no_fault f t)
  | error d t =>
    have hst : Grows s t := hheader.error hrun
    have hd : Reported d t := by
      have h := reports_declarationHeader hs hkind
      unfold Reports at h
      rw [hrun] at h
      exact h
    unfold Reports
    rw [run_functionStatement_error hrun hst]
    cases inBlock with
    | false => exact hd
    | true =>
      -- the cursor is back at the keyword
      have hnone : Reports (pure none) s (IfSome (Stated s)) := .pure_none
      exact hnone
  | ok header t =>
    obtain ⟨header, name⟩ := header
    obtain ⟨hst, -, hstart, hclean, hlt, -, -⟩ := hheader.ok hrun
    refine .of_run_eq (run_functionStatement_ok hrun) hst ?_
    exact hg.declared (hs.of_clean hst hclean) name (Nat.le_of_lt (hstart ▸ hlt))

theorem Accurate.returnStatement (hg : g.Accurate) (hs : s.Ready)
    (hend : s.current.kind ≠ .endMark) : Reports g.returnStatement s (Stated t) := by
  have hnext := hs.next hend
  unfold Level.returnStatement
  refine (Reports.advance hend).bind ?_
  rintro opening t₁ h₁ ⟨-, rfl⟩
  refine (hg.requiredExpression hnext _).bind ?_
  rintro value t₂ h₂ ⟨-, hvalue⟩
  exact reports_statementEnd (hvalue.ready (h₂.valid hnext.valid))
    fun _ hend => .of_allowed hend rfl

theorem Accurate.pathImport (hg : g.Accurate) (hs : s.Ready) (start : Nat) :
    Reports (g.pathImport start) s fun _ t => t.Ready ∧ t.errors = s.errors := by
  unfold Level.pathImport
  refine (Reports.expectName hs _).bind ?_
  rintro segment t₁ h₁ ⟨-, rfl⟩
  have hs₁ := hs.of_clean h₁ rfl
  refine (Reports.expect hs₁ (by decide) _).bind ?_
  rintro token t₂ h₂ ⟨hcolon, -, rfl⟩
  have hs₂ := hs₁.of_clean h₂ rfl
  refine (hg.path _ segment .importing hs₂ (State.follows_next hcolon)).bind ?_
  intro path t₃ h₃ hquiet
  exact reports_statementEnd (hs₂.of_clean h₃ hquiet) fun _ hnext => ⟨hnext, hquiet⟩

theorem Accurate.importStatement (hg : g.Accurate) (hs : s.Ready)
    (hend : s.current.kind ≠ .endMark) : Reports g.importStatement s (Stated s) := by
  have hnext := hs.next hend
  unfold Level.importStatement
  refine (Reports.advance hend).bind ?_
  rintro opening t₁ h₁ ⟨-, rfl⟩
  refine .look ?_
  split
  · rename_i hext
    have hend' : s.next.current.kind ≠ .endMark := kind_ne_endMark_of_keyword? hext
    refine (Reports.advance hend').bind ?_
    rintro token t₂ h₂ ⟨-, rfl⟩
    refine (reports_resourceImport (hnext.next hend') _).mono ?_
    rintro stmt u _ ⟨hu, hclean⟩
    exact ⟨hu, fun _ => hclean⟩
  · rename_i keyword _ hkey
    exact .failHere hnext ⟨s.next.pos, rfl, hkey⟩
  · refine (hg.pathImport hnext _).mono ?_
    rintro stmt u _ ⟨hu, hclean⟩
    exact ⟨hu, fun _ => hclean⟩

/-- A statement, with the keyword of its form at the cursor. -/
theorem Accurate.statementOf (hg : g.Accurate) (hs : s.Ready) {keyword : Keyword}
    (hkey : s.current.keyword? = some keyword) {form : StatementForm}
    (hform : keyword.statementForm? = some form) (inBlock : Bool) :
    Reports (g.statementOf form inBlock) s (IfSome (Stated s)) := by
  have hend : s.current.kind ≠ .endMark := kind_ne_endMark_of_keyword? hkey
  cases form with
  | binding => exact .map_some (hg.bindingStatement hs hend)
  | returning => exact .map_some (hg.returnStatement hs hend)
  | importing => exact .map_some (hg.importStatement hs hend)
  | function =>
    obtain ⟨kind, hkind⟩ : ∃ kind, keyword.functionKind? = some kind := by
      cases keyword <;> cases hform
      · exact ⟨.action, rfl⟩
      · exact ⟨.compute, rfl⟩
    have hfunction : s.current.keyword?.bind Keyword.functionKind? = some kind := by
      rw [hkey]
      exact hkind
    exact hg.functionStatement hs hfunction inBlock

theorem Accurate.statement (hg : g.Accurate) (hs : s.Ready) (inBlock : Bool) :
    Reports (g.statement inBlock) s (IfSome (Stated s)) := by
  unfold Level.statement
  refine .look ?_
  split
  · rename_i keyword hkey
    split
    · rename_i form hform
      exact hg.statementOf hs hkey hform inBlock
    · exact .failHere hs ⟨s.pos, rfl, hkey⟩
  · refine .position ((hg.expression hs).bind ?_)
    intro e? t hst he
    cases e? with
    | none => exact .pure_none
    | some e =>
      have hstmt : Reports (expressionStatement e s.pos) t (Stated s) :=
        reports_expressionStatement (hst.valid hs.valid) he.2 s.pos
      exact hstmt.map_some

end Level

end FrontEnd.Grammar
