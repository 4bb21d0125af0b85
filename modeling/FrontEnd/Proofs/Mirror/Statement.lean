import FrontEnd.Proofs.Mirror.Expression
import FrontEnd.Proofs.Parallel.Program

/-! Statements, blocks and the rules at every depth on streams that look the same. -/
namespace FrontEnd.Grammar

open Parse

variable {α : Type} {d : Nat}

namespace Mirrors

theorem expressionStatement (e : Expr) (start : Nat) :
    Mirrors Eq d (expressionStatement e start) (expressionStatement e start) := by
  apply look
  intro a b h
  simp only [h.kind, h.text]
  apply ite (failHere _)
  apply ite (fail _)
  apply expectSemicolon.bindOf
  intro _ _ _
  exact (rangeFrom start).bind fun span => pure _

theorem declarationHeader : Mirrors Eq d declarationHeader declarationHeader := by
  apply signature.bind
  intro header
  cases header.name with
  | none => exact fail _
  | some name =>
    apply look
    intro a b h
    simp only [h.kind, h.text]
    apply ite (pure _)
    cases header.kind with
    | action => exact failHere _
    | compute => exact failHere _

theorem resourceImport (start : Nat) :
    Mirrors Eq d (resourceImport start) (resourceImport start) := by
  apply (expect .string _).bindOf
  intro resource resource' ⟨hresource, hstring⟩
  rw [hresource.value (by simp [hstring]), hresource.index]
  apply look
  intro a b h
  simp only [h.isKeyword, h.text]
  apply ite (failHere _)
  apply advance.bindOf
  intro _ _ _
  apply (expectName _).bind
  intro localName
  apply expectSemicolon.bindOf
  intro _ _ _
  exact (rangeFrom start).bind fun span => pure _

variable {g h : Level} (hg : g.Mirrored d h)

include hg

theorem bindingFrom (start : Nat) (mutable : Bool) :
    Mirrors Eq d (g.bindingFrom start mutable) (h.bindingFrom start mutable) := by
  apply (expectName _).bind
  intro name
  apply (expect _ _).bindOf
  intro _ _ _
  apply (requiredExpression hg _).bind
  intro value
  apply expectSemicolon.bindOf
  intro _ _ _
  exact (rangeFrom start).bind fun span => pure _

theorem bindingStatement : Mirrors Eq d g.bindingStatement h.bindingStatement := by
  apply advance.bindOf
  intro opening opening' hopening
  rw [hopening.index]
  apply (isAtKeyword _).bind
  intro var
  apply ite
  · exact advance.bindOf fun _ _ _ => bindingFrom hg _ _
  · exact bindingFrom hg _ _

theorem declared (header : Signature) (name : Ident) :
    Mirrors Eq d (g.declared header name) (h.declared header name) := by
  apply hg.block.bind
  intro body
  apply ite (fail _)
  exact (rangeBetween _ _).bind fun span => pure _

/-- A header that does not fit is left in both runs at once, and both go back to the same place. -/
theorem functionStatement (inBlock : Bool) :
    Mirrors Eq d (g.functionStatement inBlock) (h.functionStatement inBlock) := by
  intro s t hst
  have hgrows : ∀ u : State, Grows u (Grammar.declarationHeader u).state :=
    (Follows.declarationHeader (K := .total 0 [])).grows
  have hs := hgrows s
  have ht := hgrows t
  have hrun := declarationHeader hst
  cases hheader : Grammar.declarationHeader s with
  | ok header u =>
    rw [hheader] at hrun
    obtain ⟨v, hheader', huv⟩ :
        ∃ v, Grammar.declarationHeader t = .ok header v ∧ Alike d u v := by
      generalize Grammar.declarationHeader t = o at hrun ⊢
      cases hrun with
      | ok hab huv => exact ⟨_, by rw [hab], huv⟩
    rw [Level.run_functionStatement_ok hheader, Level.run_functionStatement_ok hheader']
    exact declared hg header.1 header.2 huv
  | error e u =>
    rw [hheader] at hrun hs
    obtain ⟨v, hheader', huv⟩ :
        ∃ v, Grammar.declarationHeader t = .error e v ∧ Alike d u v := by
      generalize Grammar.declarationHeader t = o at hrun ⊢
      cases hrun with
      | error huv => exact ⟨_, rfl, huv⟩
    rw [hheader'] at ht
    rw [Level.run_functionStatement_error hheader hs, Level.run_functionStatement_error hheader' ht]
    cases inBlock with
    | false => exact .error huv
    | true => exact .ok rfl hst
  | fault f u =>
    rw [Level.run_functionStatement_fault hheader]
    exact .fault

theorem returnStatement : Mirrors Eq d g.returnStatement h.returnStatement := by
  apply advance.bindOf
  intro opening opening' hopening
  rw [hopening.index]
  apply (requiredExpression hg _).bind
  intro value
  apply expectSemicolon.bindOf
  intro _ _ _
  exact (rangeFrom _).bind fun span => pure _

theorem pathImport (start : Nat) : Mirrors Eq d (g.pathImport start) (h.pathImport start) := by
  apply (expectName _).bind
  intro segment
  apply (expect _ _).bindOf
  intro _ _ _
  apply (hg.path segment .importing).bind
  intro path
  apply expectSemicolon.bindOf
  intro _ _ _
  exact (rangeFrom start).bind fun span => pure _

theorem importStatement : Mirrors Eq d g.importStatement h.importStatement := by
  apply advance.bindOf
  intro opening opening' hopening
  rw [hopening.index]
  apply look
  intro a b hab
  simp only [hab.keyword?]
  split
  · exact advance.bindOf fun _ _ _ => resourceImport _
  · exact failHere _
  · exact pathImport hg _

theorem statementOf (form : StatementForm) (inBlock : Bool) :
    Mirrors Eq d (g.statementOf form inBlock) (h.statementOf form inBlock) := by
  cases form with
  | binding => exact (bindingStatement hg).map some
  | function => exact functionStatement hg inBlock
  | returning => exact (returnStatement hg).map some
  | importing => exact (importStatement hg).map some

theorem statement (inBlock : Bool) :
    Mirrors Eq d (g.statement inBlock) (h.statement inBlock) := by
  apply look
  intro a b hab
  simp only [hab.keyword?]
  cases a.keyword? with
  | some keyword =>
    dsimp only
    cases keyword.statementForm? with
    | some form => exact statementOf hg form inBlock
    | none => exact failHere _
  | none =>
    apply position.bind
    intro start
    apply (expression hg).bind
    intro e?
    cases e? with
    | none => exact pure none
    | some e => exact (expressionStatement e start).map some

theorem blockPart : Mirrors Eq d g.blockPart h.blockPart := by
  apply look
  intro a b hab
  simp only [hab.keyword?]
  cases a.keyword? with
  | some keyword =>
    apply (statement hg true).bind
    intro stmt?
    cases stmt? with
    | none => exact pure _
    | some stmt => exact pure _
  | none =>
    apply position.bind
    intro start
    apply (expression hg).bind
    intro e?
    cases e? with
    | none => exact pure _
    | some e =>
      apply (isAt .semicolon).bind
      intro here
      exact ite ((expressionStatement e start).map _) (pure _)

theorem blockRound (stmts : Array Stmt) :
    Mirrors Eq d (g.blockRound stmts) (h.blockRound stmts) := by
  apply look
  intro a b hab
  simp only [hab.kind]
  apply ite (pure _)
  apply (blockPart hg).attempt.bind
  intro r
  cases r with
  | error e => exact resume e _
  | ok part =>
    cases part with
    | stmt stmt =>
      apply ite (pure _)
      exact (record _).bind fun _ => pure _
    | tail value => exact pure _
    | nothing => exact pure _

theorem blockTail (found : Option Expr) :
    Mirrors Eq d (g.blockTail found) (h.blockTail found) := by
  cases found with
  | some value => exact pure _
  | none => exact expression hg

theorem blockBody : Mirrors Eq d g.blockBody h.blockBody := by
  apply (expect _ _).bindOf
  intro opening opening' ⟨hopening, _⟩
  rw [hopening.index]
  apply (loop (blockRound hg) _).bind
  intro ⟨stmts, found⟩
  apply (blockTail hg found).bind
  intro tail
  apply (expect _ _).bindOf
  intro _ _ _
  exact (rangeFrom _).bind fun span => pure _

end Mirrors

namespace Level.Mirrored

theorem closed : Level.closed.Mirrored d .closed where
  unary := .failHere _
  binary _ _ := .failHere _
  block := .failHere _
  path _ _ := .failHere _

theorem above {g h : Level} (hg : g.Mirrored (d + 1) h) : g.above.Mirrored d h.above where
  unary := (Mirrors.operand hg).nested
  binary left least := (Mirrors.binaryChain hg left least).nested
  block := (Mirrors.blockBody hg).nested
  path segment place := (Mirrors.pathFrom hg segment place).nested

theorem withRoom (room : Nat) :
    ∀ d, (Level.withRoom room).Mirrored d (Level.withRoom room) := by
  induction room with
  | zero =>
    intro d
    exact closed
  | succ room ih =>
    intro d
    exact (ih (d + 1)).above

end Level.Mirrored

theorem Mirrors.atDepth {rule : Level → Parse α}
    (h : ∀ {g : Level}, g.Mirrored d g → Mirrors Eq d (rule g) (rule g)) :
    Mirrors Eq d (atDepth rule) (atDepth rule) := by
  intro s t hst
  unfold Grammar.atDepth
  rw [hst.depth, hst.depth']
  exact h (.withRoom _ _) hst

end FrontEnd.Grammar
