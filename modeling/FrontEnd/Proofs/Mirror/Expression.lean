import FrontEnd.Proofs.Mirror.Primitive

/-! Function headers, paths and expressions on streams that look the same. -/
namespace FrontEnd.Grammar

open Parse

variable {α : Type} {d : Nat}

namespace Mirrors

theorem parameterRound (params : Array Ident) :
    Mirrors Eq d (parameterRound params) (parameterRound params) := by
  apply (isAt .closeParen).bind
  intro here
  apply ite (pure _)
  apply (expectName _).bind
  intro param
  exact separated params param

theorem functionName : Mirrors Eq d functionName functionName := by
  apply (isAt .word).bind
  intro here
  exact ite ((expectName _).map some) (pure none)

theorem signatureOf (kind : FunctionKind) (start : Nat) :
    Mirrors Eq d (signatureOf kind start) (signatureOf kind start) := by
  apply functionName.bind
  intro name
  apply (expect _ _).bindOf
  intro _ _ _
  apply (loop parameterRound _).bind
  intro params
  apply (expect _ _).bindOf
  intro _ _ _
  exact (expect _ _).bindOf fun _ _ _ => pure _

theorem signature : Mirrors Eq d signature signature := by
  apply advance.bindOf
  intro a b h
  simp only [h.keyword?, h.text, h.index]
  cases a.keyword?.bind Keyword.functionKind? with
  | none => exact raise _
  | some kind => exact signatureOf kind a.index

theorem pathAlias (allowed : Bool) : Mirrors Eq d (pathAlias allowed) (pathAlias allowed) := by
  apply look
  intro a b h
  simp only [h.kind, h.isKeyword, h.text]
  apply ite (pure none)
  apply ite (failHere _)
  apply ite (failHere _)
  apply advance.bindOf
  intro _ _ _
  exact (expectName _).map some

theorem pathAliasIn (place : PathPlace) (allowed : Bool) :
    Mirrors Eq d (pathAliasIn place allowed) (pathAliasIn place allowed) := by
  cases place with
  | importing => exact pathAlias allowed
  | expression => exact pure none

theorem missingExpression {R : α → α → Prop} (context : String) :
    Mirrors R d (missingExpression context) (missingExpression context) := by
  apply look
  intro a b h
  rw [h.text]
  exact failHere _

theorem operator (fixity : Fixity) : Mirrors Eq d (operator fixity) (operator fixity) := by
  apply advance.bindOf
  intro a b h
  have hoperator : Operator.ofToken b fixity = Operator.ofToken a fixity := by
    simp only [Operator.ofToken, h.operation, h.index, h.text]
  rw [hoperator]
  exact lift _

end Mirrors

/-- The rules that open a level do the same on streams that look the same. -/
structure Level.Mirrored (d : Nat) (g h : Level) : Prop where
  unary : Mirrors Eq d g.unary h.unary
  binary : ∀ left least, Mirrors Eq d (g.binary left least) (h.binary left least)
  block : Mirrors Eq d g.block h.block
  path : ∀ segment place, Mirrors Eq d (g.path segment place) (h.path segment place)

namespace Mirrors

variable {g h : Level} (hg : g.Mirrored d h)

include hg

theorem groupEntry (place : PathPlace) (segment : Ident) :
    Mirrors Eq d (g.groupEntry place segment) (h.groupEntry place segment) := by
  apply (accept .doubleColon).bindOf
  intro colon colon' hcolon
  cases hcolon with
  | some _ => exact hg.path segment place
  | none =>
    apply (pathAlias true).bind
    intro localName
    exact (rangeFrom _).bind fun span => pure _

theorem groupRound (place : PathPlace) (entries : Array Path) :
    Mirrors Eq d (g.groupRound place entries) (h.groupRound place entries) := by
  apply (isAt .closeCurly).bind
  intro here
  apply ite (pure _)
  apply (expectName _).bind
  intro segment
  apply (groupEntry hg place segment).bind
  intro entry
  apply (accept .comma).bindOf
  intro comma comma' hcomma
  cases hcomma with
  | none => exact pure _
  | some _ =>
    apply (accept .closeCurly).bindOf
    intro close close' hclose
    cases hclose with
    | none => exact pure _
    | some hclose =>
      simp only [hclose.index]
      exact fail _

theorem group (place : PathPlace) : Mirrors Eq d (g.group place) (h.group place) := by
  apply advance.bindOf
  intro opening opening' hopening
  rw [hopening.index]
  apply (loop (groupRound hg place) _).bind
  intro entries
  apply (expect _ _).bindOf
  intro _ _ _
  apply ite
  · exact (rangeFrom _).bind fun span => fail _
  · exact pure _

theorem pathTarget (place : PathPlace) :
    Mirrors Eq d (g.pathTarget place) (h.pathTarget place) := by
  apply look
  intro a b hab
  simp only [hab.kind, hab.text]
  split
  · apply (expectName _).bind
    intro item
    apply (accept .doubleColon).bindOf
    intro colon colon' hcolon
    cases hcolon with
    | some _ => exact (hg.path item place).bind fun next => pure _
    | none => exact pure _
  · refine ite ?_ (failHere _)
    apply advance.bindOf
    intro star star' hstar
    rw [hstar.index]
    exact pure _
  · refine ite ?_ (failHere _)
    exact (group hg place).bind fun entries => pure _
  · exact failHere _

theorem pathFrom (segment : Ident) (place : PathPlace) :
    Mirrors Eq d (g.pathFrom segment place) (h.pathFrom segment place) := by
  apply (pathTarget hg place).bind
  intro ⟨target, aliasable⟩
  apply (pathAliasIn place aliasable).bind
  intro localName
  exact (rangeFrom _).bind fun span => pure _

theorem expression : Mirrors Eq d g.expression h.expression := by
  apply hg.unary.bind
  intro left?
  cases left? with
  | none => exact pure none
  | some left => exact (hg.binary left 0).map some

theorem requiredExpression (context : String) :
    Mirrors Eq d (g.requiredExpression context) (h.requiredExpression context) := by
  apply (expression hg).bind
  intro e?
  cases e? with
  | none => exact missingExpression context
  | some e => exact pure e

theorem operandRound (level : Nat) (right : Expr) :
    Mirrors Eq d (g.operandRound level right) (h.operandRound level right) := by
  apply look
  intro a b hab
  simp only [hab.bindingPower?]
  cases a.bindingPower? with
  | none => exact pure _
  | some power =>
    apply ite ((hg.binary _ _).map _)
    exact ite ((hg.binary _ _).map _) (pure _)

theorem rightOperand (level : Nat) :
    Mirrors Eq d (g.rightOperand level) (h.rightOperand level) := by
  apply hg.unary.bind
  intro first?
  cases first? with
  | none => exact missingExpression _
  | some first => exact loop (operandRound hg level) first

theorem binaryRound (least : Nat) (left : Expr) :
    Mirrors Eq d (g.binaryRound least left) (h.binaryRound least left) := by
  apply look
  intro a b hab
  simp only [hab.bindingPower?]
  cases a.bindingPower? with
  | none => exact pure _
  | some power =>
    apply ite (pure _)
    apply (operator _).bind
    intro op
    exact (rightOperand hg power.1).bind fun right => pure _

theorem binaryChain (left : Expr) (least : Nat) :
    Mirrors Eq d (g.binaryChain left least) (h.binaryChain left least) :=
  loop (binaryRound hg least) left

theorem argumentRound (args : Array Expr) :
    Mirrors Eq d (g.argumentRound args) (h.argumentRound args) := by
  apply (isAt .closeParen).bind
  intro here
  apply ite (pure _)
  apply (expression hg).bind
  intro arg?
  cases arg? with
  | none => exact pure _
  | some arg => exact separated args arg

theorem arguments : Mirrors Eq d g.arguments h.arguments := by
  apply (expect _ _).bindOf
  intro _ _ _
  apply (loop (argumentRound hg) _).bind
  intro args
  exact (expect _ _).bindOf fun _ _ _ => pure _

theorem elementRound (elements : Array Expr) :
    Mirrors Eq d (g.elementRound elements) (h.elementRound elements) := by
  apply (expression hg).bind
  intro element?
  cases element? with
  | none => exact pure _
  | some element => exact separated elements element

theorem parenthesizedFrom (start : Nat) (first : Expr) :
    Mirrors Eq d (g.parenthesizedFrom start first) (h.parenthesizedFrom start first) := by
  apply (accept .comma).bindOf
  intro comma comma' hcomma
  cases hcomma with
  | none => exact (expect _ _).bindOf fun _ _ _ => pure first
  | some _ =>
    apply (loop (elementRound hg) _).bind
    intro elements
    apply (expect _ _).bindOf
    intro _ _ _
    exact (rangeFrom start).bind fun span => pure _

theorem parenthesized : Mirrors Eq d g.parenthesized h.parenthesized := by
  apply advance.bindOf
  intro opening opening' hopening
  rw [hopening.index]
  apply (expression hg).bind
  intro first?
  cases first? with
  | some first => exact parenthesizedFrom hg opening.index first
  | none =>
    apply (accept .closeParen).bindOf
    intro close close' hclose
    cases hclose with
    | some _ => exact (rangeFrom _).bind fun span => pure _
    | none => exact missingExpression _

theorem functionBody (kind : FunctionKind) :
    Mirrors Eq d (g.functionBody kind) (h.functionBody kind) := by
  cases kind with
  | compute => exact requiredExpression hg _
  | action =>
    apply (isAt .openCurly).bind
    intro here
    refine ite ?_ (failHere _)
    apply hg.block.bind
    intro block
    exact ite (fail _) (pure _)

theorem function : Mirrors Eq d g.function h.function := by
  apply signature.bind
  intro header
  apply (functionBody hg header.kind).bind
  intro body
  exact (rangeBetween _ _).bind fun span => pure _

theorem keywordExpression (keyword : Keyword) :
    Mirrors Eq d (g.keywordExpression keyword) (h.keywordExpression keyword) := by
  unfold Level.keywordExpression
  cases keyword.functionKind? with
  | some _ => exact function hg
  | none => exact failHere _

theorem named {a b : Token} (hab : a.Alike b) (hk : a.kind ≠ .endMark) :
    Mirrors Eq d (g.named a) (h.named b) := by
  apply advance.bindOf
  intro _ _ _
  rw [hab.ident hk, hab.index]
  apply (accept .doubleColon).bindOf
  intro colon colon' hcolon
  cases hcolon with
  | some _ => exact (hg.path _ _).map _
  | none =>
    apply (isAt .openParen).bind
    intro here
    refine ite ?_ (pure _)
    apply (arguments hg).bind
    intro args
    exact (rangeFrom _).bind fun span => pure _

theorem primary : Mirrors Eq d g.primary h.primary := by
  apply look
  intro a b hab
  simp only [hab.literal, hab.kind, hab.keyword?, hab.index]
  cases hliteral : LiteralKind.ofLexeme? a.toLexeme with
  | some kind =>
    have hk : a.kind ≠ .endMark := by
      intro hk
      simp [LiteralKind.ofLexeme?, hk] at hliteral
    rw [hab.value hk]
    exact advance.bindOf fun _ _ _ => pure _
  | none =>
    dsimp only
    split
    · rename_i hword
      cases a.keyword? with
      | some keyword => exact (keywordExpression hg keyword).map some
      | none => exact (named hg hab (by simp [hword])).map some
    · exact (parenthesized hg).map some
    · exact hg.block.bind fun block => pure _
    · exact pure none

theorem callRound (callee : Expr) : Mirrors Eq d (g.callRound callee) (h.callRound callee) := by
  apply (isAt .openParen).bind
  intro here
  refine ite ?_ (pure _)
  apply (arguments hg).bind
  intro args
  exact (rangeFrom _).bind fun span => pure _

theorem called : Mirrors Eq d g.called h.called := by
  apply (primary hg).bind
  intro callee?
  cases callee? with
  | none => exact pure none
  | some callee => exact (loop (callRound hg) callee).map some

theorem operand : Mirrors Eq d g.operand h.operand := by
  apply look
  intro a b hab
  simp only [hab.unary?, hab.index]
  cases Operation.unary? a.toLexeme with
  | none => exact called hg
  | some _ =>
    apply (operator .before).bind
    intro op
    apply hg.unary.bind
    intro e?
    cases e? with
    | none => exact missingExpression _
    | some e => exact (rangeBetween _ _).bind fun span => pure _

end Mirrors

end FrontEnd.Grammar
