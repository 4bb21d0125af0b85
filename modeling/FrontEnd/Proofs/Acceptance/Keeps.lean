import FrontEnd.Program
import FrontEnd.Proofs.Relates

/-! Diagnostics are kept. Whatever state a rule is started in, the diagnostics recorded there are
still recorded when it ends; going back to a mark forgets only those recorded since. The property
is a class, so that it is found for the rest of a rule wherever that is cut. -/
namespace FrontEnd.Grammar

open Parse

variable {α β : Type}

/-- The diagnostics of the first state are the oldest ones of the second. -/
def Kept (s t : State) : Prop :=
  s.errors <+: t.errors

/-- The rule forgets no diagnostic. -/
class Keeps (p : Parse α) : Prop where
  kept : ∀ s, s.errors <+: (p s).state.errors

namespace Keeps

/-- A rule that changes no diagnostics keeps them. -/
theorem of_errors_eq {p : Parse α} (h : ∀ s, (p s).state.errors = s.errors) : Keeps p :=
  ⟨fun s => h s ▸ List.prefix_refl _⟩

instance pure (a : α) : Keeps (pure a : Parse α) :=
  of_errors_eq fun _ => rfl

instance fail (d : Diagnostic) : Keeps (fail d : Parse α) :=
  of_errors_eq fun _ => rfl

instance raise (f : Fault) : Keeps (raise f : Parse α) :=
  of_errors_eq fun _ => rfl

instance lift (r : Except Fault α) : Keeps (lift r) := by
  cases r with
  | ok a => exact Keeps.pure a
  | error f => exact Keeps.raise f

instance bind {p : Parse α} {f : α → Parse β} [hp : Keeps p] [hf : ∀ a, Keeps (f a)] :
    Keeps (p >>= f) :=
  ⟨Relates.bind (R := Kept) List.IsPrefix.trans hp.kept fun a => (hf a).kept⟩

instance map {p : Parse α} {f : α → β} [hp : Keeps p] : Keeps (f <$> p) :=
  ⟨Relates.map (R := Kept) hp.kept⟩

instance ite {c : Prop} [Decidable c] {p q : Parse α} [hp : Keeps p] [hq : Keeps q] :
    Keeps (if c then p else q) := by
  split
  · exact hp
  · exact hq

instance attempt {p : Parse α} [hp : Keeps p] : Keeps (attempt p) :=
  ⟨Relates.attempt (R := Kept) hp.kept⟩

instance loopFor {round : α → Parse (Round α β)} [h : ∀ a, Keeps (round a)] (rounds : Nat) (a : α) :
    Keeps (loopFor round rounds a) :=
  ⟨Relates.loopFor (R := Kept) (fun _ => List.prefix_refl _) List.IsPrefix.trans
    (fun a => (h a).kept) rounds a⟩

instance loop {round : α → Parse (Round α β)} [h : ∀ a, Keeps (round a)] (a : α) :
    Keeps (loop round a) :=
  ⟨fun s => (inferInstance : Keeps (Parse.loopFor round (s.remaining + 1) a)).kept s⟩

instance nested {p : Parse α} [hp : Keeps p] : Keeps (nested p) :=
  ⟨Relates.nested (R := Kept) (fun _ => List.prefix_refl _) (fun _ _ h => h) hp.kept⟩

instance current : Keeps current :=
  of_errors_eq fun _ => rfl

instance position : Keeps position :=
  of_errors_eq fun _ => rfl

instance rangeFrom (start : Nat) : Keeps (rangeFrom start) :=
  of_errors_eq fun _ => rfl

instance rangeBetween (start stop : Nat) : Keeps (rangeBetween start stop) :=
  Keeps.lift _

instance advance : Keeps advance := by
  refine of_errors_eq fun s => ?_
  unfold Grammar.advance
  split <;> rfl

instance record (d : Diagnostic) : Keeps (record d) :=
  ⟨fun _ => List.prefix_append _ _⟩

instance previous : Keeps previous := by
  refine of_errors_eq fun s => ?_
  unfold Grammar.previous
  split
  · rfl
  · split <;> rfl

instance isAt (kind : TokenKind) : Keeps (isAt kind) := by
  unfold Grammar.isAt
  infer_instance

instance isAtKeyword (keyword : Keyword) : Keeps (isAtKeyword keyword) := by
  unfold Grammar.isAtKeyword
  infer_instance

instance hasTokens : Keeps hasTokens := by
  unfold Grammar.hasTokens
  infer_instance

instance diagnosticHere (cause : DiagnosticCause) : Keeps (diagnosticHere cause) := by
  unfold Grammar.diagnosticHere
  infer_instance

instance failHere (cause : DiagnosticCause) : Keeps (failHere cause : Parse α) := by
  unfold Grammar.failHere
  infer_instance

instance tooDeep : Keeps (tooDeep : Parse α) := by
  unfold Grammar.tooDeep
  infer_instance

instance accept (kind : TokenKind) : Keeps (accept kind) := by
  unfold Grammar.accept
  infer_instance

instance expect (kind : TokenKind) (expected : String) : Keeps (expect kind expected) := by
  unfold Grammar.expect
  infer_instance

instance expectSemicolon : Keeps expectSemicolon := by
  unfold Grammar.expectSemicolon
  infer_instance

instance expectName (context : String) : Keeps (expectName context) := by
  unfold Grammar.expectName
  refine @Keeps.bind _ _ _ _ _ fun token => ?_
  split <;> infer_instance

instance recoverRound : ∀ a, Keeps (recoverRound a) := by
  intro a
  unfold Grammar.recoverRound
  infer_instance

instance recover : Keeps recover := by
  unfold Grammar.recover
  infer_instance

instance missingExpression (context : String) : Keeps (missingExpression context : Parse α) := by
  unfold Grammar.missingExpression
  infer_instance

instance operator (fixity : Fixity) : Keeps (operator fixity) := by
  unfold Grammar.operator
  infer_instance

instance functionName : Keeps functionName := by
  unfold Grammar.functionName
  infer_instance

/-- Whether a token is passed or not, what follows keeps the diagnostics. -/
theorem afterAccept {kind : TokenKind} {f : Option Token → Parse β} (hnone : Keeps (f none))
    (hsome : ∀ token, Keeps (f (some token))) : Keeps (Grammar.accept kind >>= f) := by
  refine @Keeps.bind _ _ _ _ _ fun token? => ?_
  cases token? with
  | none => exact hnone
  | some token => exact hsome token

/-- The end of a round over a list: behind a comma the list goes on. -/
instance afterComma (again : α) (done : β) :
    Keeps (Grammar.accept .comma >>= fun token? => match token? with
      | some _ => Pure.pure (Round.again again)
      | none => Pure.pure (Round.done done)) :=
  afterAccept inferInstance inferInstance

instance parameterRound (params : Array Ident) : Keeps (parameterRound params) := by
  unfold Grammar.parameterRound
  infer_instance

instance signatureOf (kind : FunctionKind) (start : Nat) : Keeps (signatureOf kind start) := by
  unfold Grammar.signatureOf
  infer_instance

instance signature : Keeps signature := by
  unfold Grammar.signature
  refine @Keeps.bind _ _ _ _ _ fun token => ?_
  split <;> infer_instance

instance pathAlias (allowed : Bool) : Keeps (pathAlias allowed) := by
  unfold Grammar.pathAlias
  infer_instance

instance pathAliasIn (place : PathPlace) (allowed : Bool) : Keeps (pathAliasIn place allowed) := by
  cases place with
  | importing => exact Keeps.pathAlias allowed
  | expression => exact Keeps.pure none

instance expressionStatement (e : Expr) (start : Nat) : Keeps (expressionStatement e start) := by
  unfold Grammar.expressionStatement
  infer_instance

instance declarationHeader : Keeps declarationHeader := by
  unfold Grammar.declarationHeader
  refine @Keeps.bind _ _ _ _ _ fun header => ?_
  split
  · infer_instance
  · refine @Keeps.bind _ _ _ _ _ fun token => ?_
    split
    · infer_instance
    · split <;> infer_instance

instance resourceImport (start : Nat) : Keeps (resourceImport start) := by
  unfold Grammar.resourceImport
  infer_instance

end Keeps

/-- The rules of the level forget no diagnostic. -/
class Level.Keeps (g : Level) : Prop where
  unary : Grammar.Keeps g.unary
  binary : ∀ left least, Grammar.Keeps (g.binary left least)
  block : Grammar.Keeps g.block
  path : ∀ segment place, Grammar.Keeps (g.path segment place)

attribute [instance] Level.Keeps.unary Level.Keeps.binary Level.Keeps.block Level.Keeps.path

namespace Level

variable (g : Level) [g.Keeps]

instance keeps_expression : Grammar.Keeps g.expression := by
  unfold Level.expression
  refine @Keeps.bind _ _ _ _ _ fun u? => ?_
  cases u? <;> infer_instance

instance keeps_requiredExpression (context : String) :
    Grammar.Keeps (g.requiredExpression context) := by
  unfold Level.requiredExpression
  refine @Keeps.bind _ _ _ _ _ fun e? => ?_
  cases e? <;> infer_instance

instance keeps_operandRound (level : Nat) (right : Expr) :
    Grammar.Keeps (g.operandRound level right) := by
  unfold Level.operandRound
  refine @Keeps.bind _ _ _ _ _ fun token => ?_
  split <;> infer_instance

instance keeps_rightOperand (level : Nat) : Grammar.Keeps (g.rightOperand level) := by
  unfold Level.rightOperand
  refine @Keeps.bind _ _ _ _ _ fun u? => ?_
  cases u? <;> infer_instance

instance keeps_binaryRound (least : Nat) (left : Expr) :
    Grammar.Keeps (g.binaryRound least left) := by
  unfold Level.binaryRound
  refine @Keeps.bind _ _ _ _ _ fun token => ?_
  split <;> infer_instance

instance keeps_binaryChain (left : Expr) (least : Nat) :
    Grammar.Keeps (g.binaryChain left least) := by
  unfold Level.binaryChain
  infer_instance

instance keeps_argumentRound (args : Array Expr) : Grammar.Keeps (g.argumentRound args) := by
  unfold Level.argumentRound
  have hnext : ∀ arg? : Option Expr, Grammar.Keeps (match arg? with
      | none => pure (Round.done args)
      | some arg => accept .comma >>= fun token? => match token? with
        | some _ => pure (Round.again (args.push arg))
        | none => pure (Round.done (args.push arg))) := by
    intro arg?
    cases arg? <;> infer_instance
  infer_instance

instance keeps_arguments : Grammar.Keeps g.arguments := by
  unfold Level.arguments
  infer_instance

instance keeps_elementRound (elements : Array Expr) :
    Grammar.Keeps (g.elementRound elements) := by
  unfold Level.elementRound
  refine @Keeps.bind _ _ _ _ _ fun element? => ?_
  cases element? <;> infer_instance

instance keeps_parenthesizedFrom (start : Nat) (first : Expr) :
    Grammar.Keeps (g.parenthesizedFrom start first) := by
  unfold Level.parenthesizedFrom
  refine @Keeps.bind _ _ _ _ _ fun token? => ?_
  cases token? <;> infer_instance

instance keeps_parenthesized : Grammar.Keeps g.parenthesized := by
  unfold Level.parenthesized
  refine @Keeps.bind _ _ _ _ _ fun opening => ?_
  refine @Keeps.bind _ _ _ _ _ fun first? => ?_
  cases first? with
  | some first => infer_instance
  | none =>
    refine @Keeps.bind _ _ _ _ _ fun token? => ?_
    cases token? <;> infer_instance

instance keeps_functionBody (kind : FunctionKind) : Grammar.Keeps (g.functionBody kind) := by
  unfold Level.functionBody
  cases kind <;> infer_instance

instance keeps_function : Grammar.Keeps g.function := by
  unfold Level.function
  infer_instance

instance keeps_keywordExpression (keyword : Keyword) :
    Grammar.Keeps (g.keywordExpression keyword) := by
  unfold Level.keywordExpression
  split <;> infer_instance

instance keeps_named (token : Token) : Grammar.Keeps (g.named token) := by
  unfold Level.named
  refine @Keeps.bind _ _ _ _ _ fun _ => ?_
  refine @Keeps.bind _ _ _ _ _ fun token? => ?_
  cases token? <;> infer_instance

instance keeps_primary : Grammar.Keeps g.primary := by
  unfold Level.primary
  refine @Keeps.bind _ _ _ _ _ fun token => ?_
  split
  · infer_instance
  · split
    · split <;> infer_instance
    · infer_instance
    · infer_instance
    · infer_instance

instance keeps_callRound (callee : Expr) : Grammar.Keeps (g.callRound callee) := by
  unfold Level.callRound
  infer_instance

instance keeps_called : Grammar.Keeps g.called := by
  unfold Level.called
  refine @Keeps.bind _ _ _ _ _ fun callee? => ?_
  cases callee? <;> infer_instance

instance keeps_operand : Grammar.Keeps g.operand := by
  unfold Level.operand
  refine @Keeps.bind _ _ _ _ _ fun token => ?_
  split
  · infer_instance
  · refine @Keeps.bind _ _ _ _ _ fun op => ?_
    refine @Keeps.bind _ _ _ _ _ fun e? => ?_
    cases e? <;> infer_instance

instance keeps_groupEntry (place : PathPlace) (segment : Ident) :
    Grammar.Keeps (g.groupEntry place segment) := by
  unfold Level.groupEntry
  refine @Keeps.bind _ _ _ _ _ fun token? => ?_
  cases token? <;> infer_instance

instance keeps_groupRound (place : PathPlace) (entries : Array Path) :
    Grammar.Keeps (g.groupRound place entries) := by
  unfold Level.groupRound
  have hnext : ∀ (entry : Path) (token? : Option Token), Grammar.Keeps (match token? with
      | none => pure (Round.done (entries.push entry))
      | some _ => accept .closeCurly >>= fun close? => match close? with
        | some close => fail ⟨.trailingComma, .single close.index⟩
        | none => pure (Round.again (entries.push entry))) := by
    intro entry token?
    cases token? with
    | none => infer_instance
    | some _ => exact .afterAccept inferInstance inferInstance
  infer_instance

instance keeps_group (place : PathPlace) : Grammar.Keeps (g.group place) := by
  unfold Level.group
  infer_instance

instance keeps_pathTarget (place : PathPlace) : Grammar.Keeps (g.pathTarget place) := by
  unfold Level.pathTarget
  refine @Keeps.bind _ _ _ _ _ fun token => ?_
  split
  · refine @Keeps.bind _ _ _ _ _ fun item => ?_
    refine @Keeps.bind _ _ _ _ _ fun token? => ?_
    cases token? <;> infer_instance
  · infer_instance
  · infer_instance
  · infer_instance

instance keeps_pathFrom (segment : Ident) (place : PathPlace) :
    Grammar.Keeps (g.pathFrom segment place) := by
  unfold Level.pathFrom
  infer_instance

instance keeps_bindingFrom (start : Nat) (mutable : Bool) :
    Grammar.Keeps (g.bindingFrom start mutable) := by
  unfold Level.bindingFrom
  infer_instance

instance keeps_bindingStatement : Grammar.Keeps g.bindingStatement := by
  unfold Level.bindingStatement
  infer_instance

/-- The diagnostics that an attempted header records are forgotten again, and no others. -/
instance keeps_functionStatement (inBlock : Bool) :
    Grammar.Keeps (g.functionStatement inBlock) where
  kept s := by
    have hheader := (Keeps.declarationHeader).kept s
    unfold Level.functionStatement
    rw [bind_apply]
    show s.errors <+: (((attempt declarationHeader >>= _ : Parse (Option Stmt)) s).state).errors
    rw [bind_apply]
    unfold attempt
    cases hrun : declarationHeader s with
    | ok header t =>
      rw [hrun] at hheader
      refine hheader.trans ?_
      have hrest : Grammar.Keeps (do
          let body ← g.block
          if header.1.kind = .action ∧ body.hasTail = true then fail ⟨.actionTail, body.span⟩
          else
            let span ← rangeBetween header.1.start body.span.stop
            pure (some (Stmt.function header.1.kind header.2 header.1.params body span))) :=
        inferInstance
      exact hrest.kept t
    | error d t =>
      rw [hrun] at hheader
      cases inBlock with
      | false => exact hheader
      | true =>
        have htake : s.errors = t.errors.take s.errors.length :=
          List.prefix_iff_eq_take.mp hheader
        show s.errors <+: t.errors.take s.errors.length
        exact ⟨[], by rw [List.append_nil, ← htake]⟩
    | fault f t =>
      rw [hrun] at hheader
      exact hheader

instance keeps_returnStatement : Grammar.Keeps g.returnStatement := by
  unfold Level.returnStatement
  infer_instance

instance keeps_pathImport (start : Nat) : Grammar.Keeps (g.pathImport start) := by
  unfold Level.pathImport
  infer_instance

instance keeps_importStatement : Grammar.Keeps g.importStatement := by
  unfold Level.importStatement
  refine @Keeps.bind _ _ _ _ _ fun opening => ?_
  refine @Keeps.bind _ _ _ _ _ fun token => ?_
  split <;> infer_instance

instance keeps_statement (inBlock : Bool) : Grammar.Keeps (g.statement inBlock) := by
  unfold Level.statement
  refine @Keeps.bind _ _ _ _ _ fun token => ?_
  split
  · split
    · rename_i form _
      cases form
      · exact inferInstanceAs (Grammar.Keeps (some <$> g.bindingStatement))
      · exact g.keeps_functionStatement inBlock
      · exact inferInstanceAs (Grammar.Keeps (some <$> g.returnStatement))
      · exact inferInstanceAs (Grammar.Keeps (some <$> g.importStatement))
    · infer_instance
  · refine @Keeps.bind _ _ _ _ _ fun start => ?_
    refine @Keeps.bind _ _ _ _ _ fun e? => ?_
    cases e? <;> infer_instance

instance keeps_blockPart : Grammar.Keeps g.blockPart := by
  unfold Level.blockPart
  refine @Keeps.bind _ _ _ _ _ fun token => ?_
  split
  · refine @Keeps.bind _ _ _ _ _ fun stmt? => ?_
    cases stmt? <;> infer_instance
  · refine @Keeps.bind _ _ _ _ _ fun start => ?_
    refine @Keeps.bind _ _ _ _ _ fun e? => ?_
    cases e? <;> infer_instance

instance keeps_blockRound (stmts : Array Stmt) : Grammar.Keeps (g.blockRound stmts) := by
  unfold Level.blockRound
  refine @Keeps.bind _ _ _ _ _ fun token => ?_
  split
  · infer_instance
  · refine @Keeps.bind _ _ _ _ _ fun r => ?_
    rcases r with d | part
    · infer_instance
    · cases part <;> infer_instance

instance keeps_blockTail (found : Option Expr) : Grammar.Keeps (g.blockTail found) := by
  unfold Level.blockTail
  cases found <;> infer_instance

instance keeps_blockBody : Grammar.Keeps g.blockBody := by
  unfold Level.blockBody
  infer_instance

instance keeps_above : g.above.Keeps :=
  ⟨inferInstanceAs (Grammar.Keeps (nested g.operand)),
    fun left least => inferInstanceAs (Grammar.Keeps (nested (g.binaryChain left least))),
    inferInstanceAs (Grammar.Keeps (nested g.blockBody)),
    fun segment place => inferInstanceAs (Grammar.Keeps (nested (g.pathFrom segment place)))⟩

omit [g.Keeps] in
instance keeps_withRoom (room : Nat) : (withRoom room).Keeps := by
  induction room with
  | zero => exact ⟨Keeps.tooDeep, fun _ _ => Keeps.tooDeep, Keeps.tooDeep, fun _ _ => Keeps.tooDeep⟩
  | succ room ih => exact (withRoom room).keeps_above

end Level

instance Keeps.statement (inBlock : Bool) : Keeps (statement inBlock) :=
  ⟨fun s => ((Level.withRoom (maxDepth - s.depth)).keeps_statement inBlock).kept s⟩

instance Keeps.programRound (stmts : Array Stmt) : Keeps (programRound stmts) := by
  unfold Grammar.programRound
  refine @Keeps.bind _ _ _ _ _ fun b => ?_
  split
  · refine @Keeps.bind _ _ _ _ _ fun r => ?_
    rcases r with d | stmt?
    · infer_instance
    · cases stmt? <;> infer_instance
  · infer_instance

end FrontEnd.Grammar
