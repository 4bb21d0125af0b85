import FrontEnd.Grammar.Expression
import FrontEnd.Proofs.Parallel.Path

/-! Expressions in two runs side by side. -/
namespace FrontEnd.Grammar

open Parse

variable {α : Type} {K : Link}

namespace Follows

theorem missingExpression [Moves α] (context : String) :
    Follows K (K.Beyond true) (missingExpression context : Parse α)
      (missingExpression context) := by
  refine current.bind ?_
  rintro token _ ⟨span, rfl⟩
  exact failHere _

theorem operator (fixity : Fixity) :
    Follows K (K.Beyond true) (operator fixity) (operator fixity) := by
  refine advance.bind ?_
  rintro token _ ⟨span, rfl⟩
  unfold Operator.ofToken
  dsimp only
  cases Operation.ofLexeme? token.toLexeme fixity with
  | none => exact raise _ _
  | some operation =>
    refine pure ?_
    show _ = Operator.mk operation (TokenRange.shift K.offset (.single token.index))
    rw [TokenRange.shift_single]

variable {g h : Level} (hg : g.Parallel K h)

include hg

theorem expression : Follows K (K.Beyond true) g.expression h.expression := by
  refine hg.unary.bind ?_
  rintro (_ | left) _ rfl
  · exact pure rfl
  · exact (hg.binary left 0).map fun _ _ h => congrArg some h

theorem requiredExpression (context : String) :
    Follows K (K.Beyond true) (g.requiredExpression context) (h.requiredExpression context) := by
  refine (expression hg).bind ?_
  rintro (_ | e) _ rfl
  · exact missingExpression context
  · exact pure rfl

theorem operandRound (level : Nat) (right : Expr) :
    Follows K (K.Beyond true) (g.operandRound level right)
      (h.operandRound level (right.shift K.offset)) := by
  refine current.bind ?_
  rintro token _ ⟨span, rfl⟩
  dsimp only
  rcases token.bindingPower? with _ | ⟨next, associativity⟩
  · exact pure rfl
  · refine ite ((hg.binary right (level + 1)).map ?_)
      (ite ((hg.binary right level).map ?_) (pure rfl)) <;>
    exact fun _ _ h => congrArg Round.again h

theorem rightOperand (level : Nat) :
    Follows K (K.Beyond true) (g.rightOperand level) (h.rightOperand level) := by
  refine hg.unary.bind ?_
  rintro (_ | first) _ rfl
  · exact missingExpression _
  · exact loop (operandRound hg level) first

theorem binaryRound (least : Nat) (left : Expr) :
    Follows K (K.Beyond true) (g.binaryRound least left)
      (h.binaryRound least (left.shift K.offset)) := by
  refine current.bind ?_
  rintro token _ ⟨span, rfl⟩
  dsimp only
  rcases token.bindingPower? with _ | ⟨level, -⟩
  · exact pure rfl
  · refine ite (pure rfl) ((operator _).bind ?_)
    rintro op _ rfl
    refine (rightOperand hg level).bind ?_
    rintro right _ rfl
    exact pure (congrArg Round.again (Expr.shift_join K.offset left op right).symm)

theorem binaryChain (left : Expr) (least : Nat) :
    Follows K (K.Beyond true) (g.binaryChain left least)
      (h.binaryChain (left.shift K.offset) least) :=
  loop (binaryRound hg least) left

theorem argumentRound (args : Array Expr) :
    Follows K (K.Beyond true) (g.argumentRound args)
      (h.argumentRound (Shift.shift K.offset args)) := by
  refine (isAt .closeParen).bind ?_
  rintro here _ rfl
  refine ite (pure rfl) ((expression hg).bind ?_)
  rintro (_ | arg) _ rfl
  · exact pure rfl
  · exact separated args arg

theorem arguments : Follows K (K.Beyond true) g.arguments h.arguments := by
  refine (expect (by decide) _).bind ?_
  intro _ _ _
  refine (collect (argumentRound hg)).bind ?_
  rintro args _ rfl
  refine (expect (by decide) _).bind ?_
  intro _ _ _
  exact pure Array.toList_map

theorem elementRound (elements : Array Expr) :
    Follows K (K.Beyond true) (g.elementRound elements)
      (h.elementRound (Shift.shift K.offset elements)) := by
  refine (expression hg).bind ?_
  rintro (_ | element) _ rfl
  · exact pure rfl
  · exact separated elements element

theorem parenthesizedFrom (start : Nat) (first : Expr) :
    Follows K (K.Beyond true) (g.parenthesizedFrom start first)
      (h.parenthesizedFrom (start + K.offset) (first.shift K.offset)) := by
  refine (accept .comma).bind ?_
  rintro (_ | comma) _ hcomma
  · cases hcomma
    refine (expect (by decide) _).bind ?_
    intro _ _ _
    exact pure rfl
  · obtain ⟨_, rfl, -⟩ := hcomma
    have hfirst : Shift.shift K.offset #[first] = #[first.shift K.offset] := List.map_toArray
    have hloop := loop (elementRound hg) #[first]
    rw [hfirst] at hloop
    refine hloop.bind ?_
    rintro elements _ rfl
    refine (expect (by decide) _).bind ?_
    intro _ _ _
    refine (rangeFrom start).bind ?_
    rintro span _ rfl
    refine pure ?_
    show _ = Expr.shift K.offset (.tuple elements.toList span)
    rw [Expr.shift, Tree.shiftExprs_eq_map, ← Array.toList_map]
    rfl

theorem parenthesized : Follows K (K.Beyond true) g.parenthesized h.parenthesized := by
  refine advance.bind ?_
  rintro opening _ ⟨span, rfl⟩
  refine (expression hg).bind ?_
  rintro (_ | first) _ rfl
  · refine (accept .closeParen).bind ?_
    rintro (_ | close) _ hclose
    · cases hclose
      exact missingExpression _
    · obtain ⟨_, rfl, -⟩ := hclose
      refine (rangeFrom opening.index).bind ?_
      rintro span _ rfl
      refine pure ?_
      show _ = Expr.shift K.offset (.tuple [] span)
      rw [Expr.shift, Tree.shiftExprs]
      rfl
  · exact parenthesizedFrom hg opening.index first

theorem functionBody (kind : FunctionKind) :
    Follows K (K.Beyond true) (g.functionBody kind) (h.functionBody kind) := by
  cases kind with
  | compute => exact requiredExpression hg _
  | action =>
    refine (isAt .openCurly).bind ?_
    rintro here _ rfl
    refine ite (hg.block.looking.bind ?_) (failHere _)
    rintro block _ rfl
    have htail : (Shift.shift K.offset block).hasTail = block.hasTail := block.hasTail_shift _
    have hspan : (Shift.shift K.offset block).span = block.span.shift K.offset :=
      block.span_shift _
    rw [htail, hspan]
    refine ite (fail ⟨.actionTail, block.span⟩) (pure ?_)
    show _ = Expr.shift K.offset (.block block)
    rw [Expr.shift]
    rfl

theorem function : Follows K (K.Beyond true) g.function h.function := by
  refine signature.bind ?_
  rintro header _ rfl
  refine (functionBody hg header.kind).bind ?_
  rintro body _ rfl
  have hspan : (Shift.shift K.offset body).span = body.span.shift K.offset := body.span_shift _
  rw [hspan]
  refine (rangeBetween _ _).bind ?_
  rintro span _ rfl
  refine pure ?_
  show _ = Expr.shift K.offset (.function header.kind header.name header.params body span)
  rw [Expr.shift]
  rfl

theorem keywordExpression (keyword : Keyword) :
    Follows K (K.Beyond true) (g.keywordExpression keyword) (h.keywordExpression keyword) := by
  unfold Level.keywordExpression
  cases keyword.functionKind? with
  | some _ => exact function hg
  | none => exact failHere _

theorem named (token : Token) (span : ByteRange) :
    Follows K (K.Beyond true) (g.named token)
      (h.named { token with span := span, index := token.index + K.offset }) := by
  have hident : Ident.ofToken { token with span := span, index := token.index + K.offset } =
      (Ident.ofToken token).shift K.offset := (Ident.shift_ofToken K.offset token).symm
  refine advance.bind ?_
  intro _ _ _
  rw [hident]
  refine (accept .doubleColon).bind ?_
  rintro (_ | colon) _ hcolon
  · cases hcolon
    refine (isAt .openParen).bind ?_
    rintro here _ rfl
    refine ite ((arguments hg).bind ?_) (pure ?_)
    · rintro args _ rfl
      refine (rangeFrom token.index).bind ?_
      rintro range _ rfl
      refine pure ?_
      show _ = Expr.shift K.offset (.call (Ident.ofToken token) args range)
      rw [Expr.shift, Tree.shiftExprs_eq_map]
      rfl
    · show _ = Expr.shift K.offset (.ident (Ident.ofToken token))
      rw [Expr.shift]
  · obtain ⟨_, rfl, -⟩ := hcolon
    refine (hg.path _ .expression).map ?_
    rintro p _ rfl
    show _ = Expr.shift K.offset (.path p)
    rw [Expr.shift]
    rfl

theorem primary : Follows K (K.Beyond true) g.primary h.primary := by
  refine current.bind ?_
  rintro token _ ⟨span, rfl⟩
  dsimp only
  cases LiteralKind.ofLexeme? token.toLexeme with
  | some kind =>
    refine advance.bind ?_
    intro _ _ _
    refine pure ?_
    show _ = some (Expr.shift K.offset (.literal ⟨kind, token.value, .single token.index⟩))
    rw [Expr.shift, Literal.shift, TokenRange.shift_single]
  | none =>
    dsimp only
    split
    · cases token.keyword? with
      | some keyword => exact (keywordExpression hg keyword).map fun _ _ h => congrArg some h
      | none => exact (named hg token span).map fun _ _ h => congrArg some h
    · exact (parenthesized hg).map fun _ _ h => congrArg some h
    · refine hg.block.looking.bind ?_
      rintro block _ rfl
      refine pure ?_
      show _ = some (Expr.shift K.offset (.block block))
      rw [Expr.shift]
      rfl
    · exact pure rfl

theorem callRound (callee : Expr) :
    Follows K (K.Beyond true) (g.callRound callee) (h.callRound (callee.shift K.offset)) := by
  refine (isAt .openParen).bind ?_
  rintro here _ rfl
  refine ite ((arguments hg).bind ?_) (pure rfl)
  rintro args _ rfl
  rw [Expr.span_shift]
  refine (rangeFrom _).bind ?_
  rintro span _ rfl
  refine pure ?_
  show _ = Round.again (Expr.shift K.offset (.callValue callee args span))
  rw [Expr.shift, Tree.shiftExprs_eq_map]
  rfl

theorem called : Follows K (K.Beyond true) g.called h.called := by
  refine (primary hg).bind ?_
  rintro (_ | callee) _ rfl
  · exact pure rfl
  · exact (loop (callRound hg) callee).map fun _ _ h => congrArg some h

theorem operand : Follows K (K.Beyond true) g.operand h.operand := by
  refine current.bind ?_
  rintro token _ ⟨span, rfl⟩
  dsimp only
  cases Operation.unary? token.toLexeme with
  | none => exact called hg
  | some _ =>
    refine (operator .before).bind ?_
    rintro op _ rfl
    refine hg.unary.bind ?_
    rintro (_ | e) _ rfl
    · exact missingExpression _
    · have hrange := rangeBetween (K := K) (E := K.Beyond true) token.index e.span.stop
      rw [← TokenRange.stop_shift, ← e.span_shift] at hrange
      refine hrange.bind ?_
      rintro span _ rfl
      refine pure ?_
      show _ = some (Expr.shift K.offset (.unary op e span))
      rw [Expr.shift]
      rfl

end Follows

end FrontEnd.Grammar
