import FrontEnd.Grammar.Nesting
import FrontEnd.Proofs.Depth.Levels

/-! The trees that rules build fit on the levels that are left to them. A rule that opens a level
builds a tree one level higher than the rules below it, and puts what those have built behind an
edge that leads one level deeper. -/
namespace FrontEnd.Grammar

open Parse Node

variable {α β : Type}

/-- Every value of the rule has the property, from whatever state the rule is run. -/
structure Gives (p : Parse α) (P : α → Prop) : Prop where
  value : ∀ {s t : State} {a : α}, p s = .ok a t → P a

/-- What a round of a loop has to give so that the loop gives `Q`. -/
def Parse.Round.Holds (P : α → Prop) (Q : β → Prop) : Round α β → Prop
  | .again a => P a
  | .done b => Q b

namespace Gives

variable {p q : Parse α} {P P' : α → Prop} {Q : β → Prop} {next : α → Parse β}

theorem any (p : Parse α) : Gives p fun _ => True :=
  ⟨fun _ => trivial⟩

theorem mono (hp : Gives p P) (h : ∀ a, P a → P' a) : Gives p P' :=
  ⟨fun hrun => h _ (hp.value hrun)⟩

theorem pure {a : α} (h : P a) : Gives (pure a) P where
  value hrun := by
    cases hrun
    exact h

theorem fail (d : Diagnostic) : Gives (fail d) P where
  value hrun := by cases hrun

theorem failHere (cause : DiagnosticCause) : Gives (failHere cause) P where
  value hrun := by cases hrun

theorem missingExpression (context : String) : Gives (missingExpression context) P where
  value hrun := by cases hrun

theorem bind (hp : Gives p P) (hnext : ∀ a, P a → Gives (next a) Q) :
    Gives (p >>= next) Q where
  value {s t b} hrun := by
    rw [bind_apply] at hrun
    cases hp' : p s with
    | ok a u =>
      rw [hp'] at hrun
      exact (hnext a (hp.value hp')).value hrun
    | error d u => simp [hp'] at hrun
    | fault f u => simp [hp'] at hrun

/-- A rule whose value is no part of a tree. -/
theorem skip (hnext : ∀ a, Gives (next a) Q) : Gives (p >>= next) Q :=
  (any p).bind fun a _ => hnext a

theorem map {f : α → β} (hp : Gives p P) (hf : ∀ a, P a → Q (f a)) : Gives (f <$> p) Q := by
  rw [map_eq_pure_bind]
  exact hp.bind fun a ha => pure (hf a ha)

/-- A rule whose value is there for sure where another one may have none. -/
theorem mapSome (hp : Gives p P) : Gives (some <$> p) fun r => ∀ a ∈ r, P a :=
  hp.map fun a ha => by simpa using ha

theorem ite {c : Prop} [Decidable c] (hp : Gives p P) (hq : Gives q P) :
    Gives (if c then p else q) P := by
  split
  · exact hp
  · exact hq

theorem attempt (hp : Gives p P) : Gives (attempt p) fun r => ∀ a, r = .ok a → P a where
  value {s t r} hrun := by
    intro a hr
    unfold Parse.attempt at hrun
    cases hp' : p s with
    | ok b u =>
      rw [hp', hr] at hrun
      cases hrun
      exact hp.value hp'
    | error d u =>
      rw [hp', hr] at hrun
      cases hrun
    | fault f u => simp [hp'] at hrun

theorem loop {round : α → Parse (Round α β)}
    (hround : ∀ a, P a → Gives (round a) (Round.Holds P Q)) {a : α} (ha : P a) :
    Gives (loop round a) Q := by
  have hrounds : ∀ rounds a, P a → Gives (loopFor round rounds a) Q := by
    intro rounds
    induction rounds with
    | zero =>
      intro a _
      exact ⟨fun hrun => by cases hrun⟩
    | succ rounds ih =>
      intro a ha
      unfold loopFor
      apply (hround a ha).bind
      intro r hr
      cases r with
      | again a => exact ih a hr
      | done b => exact pure hr
  exact ⟨fun {s t b} hrun => (hrounds (s.remaining + 1) a ha).value hrun⟩

theorem nested (hp : Gives p P) : Gives (nested p) P where
  value hrun := by
    unfold Grammar.nested at hrun
    split at hrun
    · cases hrun
    · split at hrun
      · rename_i hp'
        cases hrun
        exact hp.value hp'
      · cases hrun
      · cases hrun

/-- An item of a list, which goes on if there is a comma behind the item. -/
theorem separated {P : α → Prop} {items : Array α} {item : α} (hitems : ∀ x ∈ items, P x)
    (hitem : P item) :
    Gives
      (Grammar.accept .comma >>= fun comma => match comma with
        | some _ => Pure.pure (Round.again (items.push item))
        | none => Pure.pure (Round.done (items.push item)))
      (Round.Holds (fun items => ∀ x ∈ items, P x) fun items => ∀ x ∈ items, P x) := by
  have hpush : ∀ x ∈ items.push item, P x := Array.forall_mem_push.mpr ⟨hitem, hitems⟩
  apply skip
  intro comma
  cases comma with
  | some _ => exact pure hpush
  | none => exact pure hpush

end Gives

namespace Level

/-- What the rules of a level build fits on the levels that are left to them. -/
structure Fit (levels : Nat) (g : Level) : Prop where
  unary : Gives g.unary fun e? => ∀ e ∈ e?, Bounded levels (.expr e)
  binary : ∀ left least, Bounded levels (.expr left) →
    Gives (g.binary left least) fun e => Bounded levels (.expr e)
  block : Gives g.block fun b => Bounded levels (.block b)
  path : ∀ segment place, Gives (g.path segment place) fun p => Bounded levels (.path p)

namespace Fit

variable {levels : Nat} {g : Level} (hg : g.Fit levels)

include hg

theorem groupEntry (place : PathPlace) (segment : Ident) :
    Gives (g.groupEntry place segment) fun p => Bounded (levels + 1 - entryRise p) (.path p) := by
  apply Gives.skip
  intro colon
  cases colon with
  | some _ =>
    apply (hg.path segment place).mono
    intro p hp
    apply hp.mono
    unfold entryRise
    split <;> omega
  | none =>
    apply Gives.skip
    intro localName
    apply Gives.skip
    intro span
    apply Gives.pure
    exact Bounded.mk (by simp [below, belowTarget, rising, Bounded.ident])

theorem groupRound (place : PathPlace) {entries : Array Path}
    (hentries : ∀ p ∈ entries, Bounded (levels + 1 - entryRise p) (.path p)) :
    Gives (g.groupRound place entries)
      (Round.Holds (fun entries => ∀ p ∈ entries, Bounded (levels + 1 - entryRise p) (.path p))
        fun entries => ∀ p ∈ entries, Bounded (levels + 1 - entryRise p) (.path p)) := by
  apply Gives.skip
  intro here
  apply Gives.ite (Gives.pure hentries)
  apply Gives.skip
  intro segment
  apply (hg.groupEntry place segment).bind
  intro entry hentry
  have hpush : ∀ p ∈ entries.push entry, Bounded (levels + 1 - entryRise p) (.path p) :=
    Array.forall_mem_push.mpr ⟨hentry, hentries⟩
  apply Gives.skip
  intro comma
  cases comma with
  | none => exact Gives.pure hpush
  | some _ =>
    apply Gives.skip
    intro close
    cases close with
    | none => exact Gives.pure hpush
    | some _ => exact Gives.fail _

theorem group (place : PathPlace) :
    Gives (g.group place) fun entries =>
      ∀ p ∈ entries, Bounded (levels + 1 - entryRise p) (.path p) := by
  apply Gives.skip
  intro opening
  apply (Gives.loop (fun _ h => hg.groupRound place h) (by simp)).bind
  intro entries hentries
  apply Gives.skip
  intro close
  apply Gives.ite
  · exact Gives.skip fun span => Gives.fail _
  · apply Gives.pure
    simpa using hentries

theorem pathTarget (place : PathPlace) :
    Gives (g.pathTarget place) fun target =>
      ∀ b ∈ belowTarget target.1, Bounded (levels + 1 - b.1) b.2 := by
  apply Gives.skip
  intro token
  dsimp only
  split
  · apply Gives.skip
    intro item
    apply Gives.skip
    intro colon
    cases colon with
    | some _ =>
      apply (hg.path item place).bind
      intro next hnext
      apply Gives.pure
      simpa [belowTarget] using hnext
    | none =>
      apply Gives.pure
      simp [belowTarget, Bounded.ident]
  · apply Gives.ite
    · apply Gives.skip
      intro star
      apply Gives.pure
      simp [belowTarget, Bounded.wildcard]
    · exact Gives.failHere _
  · apply Gives.ite
    · apply (hg.group place).bind
      intro entries hentries
      apply Gives.pure
      simpa [belowTarget] using hentries
    · exact Gives.failHere _
  · exact Gives.failHere _

theorem pathFrom (segment : Ident) (place : PathPlace) :
    Gives (g.pathFrom segment place) fun p => Bounded (levels + 1) (.path p) := by
  apply (hg.pathTarget place).bind
  intro ⟨target, aliasable⟩ htarget
  apply Gives.skip
  intro localName
  apply Gives.skip
  intro span
  apply Gives.pure
  apply Bounded.mk
  intro b hb
  simp [below, rising] at hb
  rcases hb with rfl | hb | ⟨x, -, rfl⟩
  · exact Bounded.ident _
  · exact htarget b hb
  · exact Bounded.ident _

theorem expression : Gives g.expression fun e? => ∀ e ∈ e?, Bounded levels (.expr e) := by
  apply hg.unary.bind
  intro left? hleft
  cases left? with
  | none => exact Gives.pure (by simp)
  | some left => exact (hg.binary left 0 (hleft left rfl)).mapSome

theorem requiredExpression (context : String) :
    Gives (g.requiredExpression context) fun e => Bounded levels (.expr e) := by
  apply hg.expression.bind
  intro e? he
  cases e? with
  | none => exact Gives.missingExpression context
  | some e => exact Gives.pure (he e rfl)

theorem operandRound (level : Nat) {right : Expr} (hright : Bounded levels (.expr right)) :
    Gives (g.operandRound level right)
      (Round.Holds (fun e => Bounded levels (.expr e)) fun e => Bounded levels (.expr e)) := by
  apply Gives.skip
  intro token
  cases token.bindingPower? with
  | none => exact Gives.pure hright
  | some power =>
    dsimp only
    apply Gives.ite
    · exact (hg.binary right _ hright).map fun _ h => h
    · apply Gives.ite
      · exact (hg.binary right _ hright).map fun _ h => h
      · exact Gives.pure hright

theorem rightOperand (level : Nat) :
    Gives (g.rightOperand level) fun e => Bounded levels (.expr e) := by
  apply hg.unary.bind
  intro first? hfirst
  cases first? with
  | none => exact Gives.missingExpression _
  | some first => exact Gives.loop (fun _ h => hg.operandRound level h) (hfirst first rfl)

/-- What stands before an operator stays on its level, and the right operand goes one deeper: a
chain that groups to the left gets no deeper, however long it is. -/
theorem binaryRound (least : Nat) {left : Expr} (hleft : Bounded (levels + 1) (.expr left)) :
    Gives (g.binaryRound least left)
      (Round.Holds (fun e => Bounded (levels + 1) (.expr e))
        fun e => Bounded (levels + 1) (.expr e)) := by
  apply Gives.skip
  intro token
  cases token.bindingPower? with
  | none => exact Gives.pure hleft
  | some power =>
    dsimp only
    apply Gives.ite
    · exact Gives.pure hleft
    · apply Gives.skip
      intro op
      apply (hg.rightOperand power.1).bind
      intro right hright
      apply Gives.pure
      exact Bounded.mk (by simp [below, belowExpr, Expr.join, hleft, hright, Bounded.operator])

theorem binaryChain {left : Expr} (hleft : Bounded (levels + 1) (.expr left)) (least : Nat) :
    Gives (g.binaryChain left least) fun e => Bounded (levels + 1) (.expr e) :=
  Gives.loop (fun _ h => hg.binaryRound least h) hleft

theorem argumentRound {args : Array Expr} (hargs : ∀ e ∈ args, Bounded levels (.expr e)) :
    Gives (g.argumentRound args)
      (Round.Holds (fun args => ∀ e ∈ args, Bounded levels (.expr e))
        fun args => ∀ e ∈ args, Bounded levels (.expr e)) := by
  apply Gives.skip
  intro here
  apply Gives.ite (Gives.pure hargs)
  apply hg.expression.bind
  intro arg? harg
  cases arg? with
  | none => exact Gives.pure hargs
  | some arg => exact Gives.separated hargs (harg arg rfl)

theorem arguments : Gives g.arguments fun args => ∀ e ∈ args, Bounded levels (.expr e) := by
  apply Gives.skip
  intro opening
  apply (Gives.loop (fun _ h => hg.argumentRound h) (by simp)).bind
  intro args hargs
  apply Gives.skip
  intro close
  apply Gives.pure
  simpa using hargs

theorem elementRound {elements : Array Expr}
    (helements : ∀ e ∈ elements, Bounded levels (.expr e)) :
    Gives (g.elementRound elements)
      (Round.Holds (fun elements => ∀ e ∈ elements, Bounded levels (.expr e))
        fun elements => ∀ e ∈ elements, Bounded levels (.expr e)) := by
  apply hg.expression.bind
  intro element? helement
  cases element? with
  | none => exact Gives.pure helements
  | some element => exact Gives.separated helements (helement element rfl)

theorem parenthesizedFrom (start : Nat) {first : Expr} (hfirst : Bounded levels (.expr first)) :
    Gives (g.parenthesizedFrom start first) fun e => Bounded (levels + 1) (.expr e) := by
  apply Gives.skip
  intro comma
  cases comma with
  | none =>
    apply Gives.skip
    intro close
    exact Gives.pure (hfirst.mono (by omega))
  | some _ =>
    apply (Gives.loop (fun _ h => hg.elementRound h) (by simpa using hfirst)).bind
    intro elements helements
    apply Gives.skip
    intro close
    apply Gives.skip
    intro span
    apply Gives.pure
    exact Bounded.mk (by simpa [below, belowExpr, rising] using helements)

theorem parenthesized : Gives g.parenthesized fun e => Bounded (levels + 1) (.expr e) := by
  apply Gives.skip
  intro opening
  apply hg.expression.bind
  intro first? hfirst
  cases first? with
  | some first => exact hg.parenthesizedFrom _ (hfirst first rfl)
  | none =>
    apply Gives.skip
    intro close
    cases close with
    | some _ =>
      apply Gives.skip
      intro span
      apply Gives.pure
      exact Bounded.mk (by simp [below, belowExpr, rising])
    | none => exact Gives.missingExpression _

theorem functionBody (kind : FunctionKind) :
    Gives (g.functionBody kind) fun e => Bounded levels (.expr e) := by
  cases kind with
  | compute => exact hg.requiredExpression _
  | action =>
    apply Gives.skip
    intro here
    apply Gives.ite
    · apply hg.block.bind
      intro block hblock
      apply Gives.ite (Gives.fail _)
      exact Gives.pure (hblock.same rfl)
    · exact Gives.failHere _

theorem function : Gives g.function fun e => Bounded (levels + 1) (.expr e) := by
  apply Gives.skip
  intro header
  apply (hg.functionBody header.kind).bind
  intro body hbody
  apply Gives.skip
  intro span
  apply Gives.pure
  apply Bounded.mk
  intro b hb
  simp only [below, belowExpr, List.mem_append, List.mem_singleton] at hb
  rcases hb with hb | rfl
  · simp only [rising, List.mem_map] at hb
    obtain ⟨_, ⟨x, -, rfl⟩, rfl⟩ := hb
    exact Bounded.ident x
  · exact hbody

theorem keywordExpression (keyword : Keyword) :
    Gives (g.keywordExpression keyword) fun e => Bounded (levels + 1) (.expr e) := by
  unfold Level.keywordExpression
  split
  · exact hg.function
  · exact Gives.failHere _

theorem named (token : Token) : Gives (g.named token) fun e => Bounded (levels + 1) (.expr e) := by
  apply Gives.skip
  intro _
  apply Gives.skip
  intro colon
  cases colon with
  | some _ =>
    apply (hg.path _ _).map
    intro p hp
    exact (hp.mono (Nat.le_succ levels)).same rfl
  | none =>
    apply Gives.skip
    intro here
    apply Gives.ite
    · apply hg.arguments.bind
      intro args hargs
      apply Gives.skip
      intro span
      apply Gives.pure
      exact Bounded.mk (by simpa [below, belowExpr, rising, Bounded.ident] using hargs)
    · exact Gives.pure (Bounded.mk (by simp [below, belowExpr, Bounded.ident]))

theorem primary : Gives g.primary fun e? => ∀ e ∈ e?, Bounded (levels + 1) (.expr e) := by
  apply Gives.skip
  intro token
  split
  · apply Gives.skip
    intro _
    apply Gives.pure
    simp only [Option.mem_some_iff, forall_eq']
    exact Bounded.mk (by simp [below, belowExpr, Bounded.literal])
  · split
    · split
      · exact (hg.keywordExpression _).mapSome
      · exact (hg.named _).mapSome
    · exact hg.parenthesized.mapSome
    · apply hg.block.bind
      intro block hblock
      apply Gives.pure
      simp only [Option.mem_some_iff, forall_eq']
      exact (hblock.mono (Nat.le_succ levels)).same rfl
    · exact Gives.pure (by simp)

/-- The called value stays on its level, and the arguments go one deeper. -/
theorem callRound {callee : Expr} (hcallee : Bounded (levels + 1) (.expr callee)) :
    Gives (g.callRound callee)
      (Round.Holds (fun e => Bounded (levels + 1) (.expr e))
        fun e => Bounded (levels + 1) (.expr e)) := by
  apply Gives.skip
  intro here
  apply Gives.ite
  · apply hg.arguments.bind
    intro args hargs
    apply Gives.skip
    intro span
    apply Gives.pure
    exact Bounded.mk (by simpa [below, belowExpr, rising, hcallee] using hargs)
  · exact Gives.pure hcallee

theorem called : Gives g.called fun e? => ∀ e ∈ e?, Bounded (levels + 1) (.expr e) := by
  apply hg.primary.bind
  intro callee? hcallee
  cases callee? with
  | none => exact Gives.pure (by simp)
  | some callee => exact (Gives.loop (fun _ h => hg.callRound h) (hcallee callee rfl)).mapSome

theorem operand : Gives g.operand fun e? => ∀ e ∈ e?, Bounded (levels + 1) (.expr e) := by
  apply Gives.skip
  intro token
  cases Operation.unary? token.toLexeme with
  | none => exact hg.called
  | some _ =>
    apply Gives.skip
    intro op
    apply hg.unary.bind
    intro e? he
    cases e? with
    | none => exact Gives.missingExpression _
    | some e =>
      apply Gives.skip
      intro span
      apply Gives.pure
      simp only [Option.mem_some_iff, forall_eq']
      exact Bounded.mk (by simpa [below, belowExpr, Bounded.operator] using he e rfl)

omit hg in
theorem expressionStatement {e : Expr} (he : Bounded levels (.expr e)) (start : Nat) :
    Gives (expressionStatement e start) fun s => Bounded (levels + 1) (.stmt s) := by
  apply Gives.skip
  intro token
  apply Gives.ite (Gives.failHere _)
  apply Gives.ite (Gives.fail _)
  apply Gives.skip
  intro _
  apply Gives.skip
  intro span
  apply Gives.pure
  exact Bounded.mk (by simpa [below, belowStmt] using he)

omit hg in
theorem resourceImport (start : Nat) :
    Gives (resourceImport start) fun s => Bounded (levels + 1) (.stmt s) := by
  apply Gives.skip
  intro resource
  apply Gives.skip
  intro token
  apply Gives.ite (Gives.failHere _)
  apply Gives.skip
  intro _
  apply Gives.skip
  intro localName
  apply Gives.skip
  intro _
  apply Gives.skip
  intro span
  apply Gives.pure
  exact Bounded.mk (by simp [below, belowStmt, Bounded.literal, Bounded.ident])

theorem bindingFrom (start : Nat) (mutable : Bool) :
    Gives (g.bindingFrom start mutable) fun s => Bounded (levels + 1) (.stmt s) := by
  apply Gives.skip
  intro name
  apply Gives.skip
  intro _
  apply (hg.requiredExpression _).bind
  intro value hvalue
  apply Gives.skip
  intro _
  apply Gives.skip
  intro span
  apply Gives.pure
  exact Bounded.mk (by simpa [below, belowStmt, Bounded.ident] using hvalue)

theorem bindingStatement : Gives g.bindingStatement fun s => Bounded (levels + 1) (.stmt s) := by
  apply Gives.skip
  intro opening
  apply Gives.skip
  intro var
  apply Gives.ite
  · exact Gives.skip fun _ => hg.bindingFrom _ _
  · exact hg.bindingFrom _ _

theorem functionStatement (inBlock : Bool) :
    Gives (g.functionStatement inBlock) fun s? => ∀ s ∈ s?, Bounded (levels + 1) (.stmt s) := by
  apply Gives.skip
  intro before
  apply Gives.skip
  intro header
  cases header with
  | error d =>
    apply Gives.ite
    · exact Gives.skip fun _ => Gives.pure (by simp)
    · exact Gives.fail d
  | ok header =>
    apply hg.block.bind
    intro body hbody
    apply Gives.ite (Gives.fail _)
    apply Gives.skip
    intro span
    apply Gives.pure
    simp only [Option.mem_some_iff, forall_eq']
    apply Bounded.mk
    intro b hb
    simp only [below, belowStmt, List.mem_append, List.mem_singleton] at hb
    rcases hb with hb | rfl
    · simp only [rising, List.mem_map] at hb
      obtain ⟨_, ⟨x, -, rfl⟩, rfl⟩ := hb
      exact Bounded.ident x
    · exact hbody

theorem returnStatement : Gives g.returnStatement fun s => Bounded (levels + 1) (.stmt s) := by
  apply Gives.skip
  intro opening
  apply (hg.requiredExpression _).bind
  intro value hvalue
  apply Gives.skip
  intro _
  apply Gives.skip
  intro span
  apply Gives.pure
  exact Bounded.mk (by simpa [below, belowStmt] using hvalue)

theorem pathImport (start : Nat) :
    Gives (g.pathImport start) fun s => Bounded (levels + 1) (.stmt s) := by
  apply Gives.skip
  intro segment
  apply Gives.skip
  intro _
  apply (hg.path segment .importing).bind
  intro path hpath
  apply Gives.skip
  intro _
  apply Gives.skip
  intro span
  apply Gives.pure
  exact Bounded.mk (by simpa [below, belowStmt] using hpath)

theorem importStatement : Gives g.importStatement fun s => Bounded (levels + 1) (.stmt s) := by
  apply Gives.skip
  intro opening
  apply Gives.skip
  intro token
  split
  · exact Gives.skip fun _ => resourceImport _
  · exact Gives.failHere _
  · exact hg.pathImport _

theorem statementOf (form : StatementForm) (inBlock : Bool) :
    Gives (g.statementOf form inBlock) fun s? => ∀ s ∈ s?, Bounded (levels + 1) (.stmt s) := by
  cases form with
  | binding => exact hg.bindingStatement.mapSome
  | function => exact hg.functionStatement inBlock
  | returning => exact hg.returnStatement.mapSome
  | importing => exact hg.importStatement.mapSome

theorem statement (inBlock : Bool) :
    Gives (g.statement inBlock) fun s? => ∀ s ∈ s?, Bounded (levels + 1) (.stmt s) := by
  apply Gives.skip
  intro token
  split
  · split
    · exact hg.statementOf _ inBlock
    · exact Gives.failHere _
  · apply Gives.skip
    intro start
    apply hg.expression.bind
    intro e? he
    cases e? with
    | none => exact Gives.pure (by simp)
    | some e => exact (expressionStatement (he e rfl) start).mapSome

theorem blockPart :
    Gives g.blockPart fun part =>
      match part with
      | .stmt s => Bounded (levels + 1) (.stmt s)
      | .tail e => Bounded levels (.expr e)
      | .nothing => True := by
  apply Gives.skip
  intro token
  split
  · apply (hg.statement true).bind
    intro s? hs
    cases s? with
    | none => exact Gives.pure trivial
    | some s => exact Gives.pure (hs s rfl)
  · apply Gives.skip
    intro start
    apply hg.expression.bind
    intro e? he
    cases e? with
    | none => exact Gives.pure trivial
    | some e =>
      apply Gives.skip
      intro here
      apply Gives.ite
      · exact (expressionStatement (he e rfl) start).map fun _ h => h
      · exact Gives.pure (he e rfl)

theorem blockRound {stmts : Array Stmt} (hstmts : ∀ s ∈ stmts, Bounded (levels + 1) (.stmt s)) :
    Gives (g.blockRound stmts)
      (Round.Holds (fun stmts => ∀ s ∈ stmts, Bounded (levels + 1) (.stmt s))
        fun r => (∀ s ∈ r.1, Bounded (levels + 1) (.stmt s)) ∧
          ∀ e ∈ r.2, Bounded levels (.expr e)) := by
  apply Gives.skip
  intro token
  apply Gives.ite
  · exact Gives.pure ⟨hstmts, by simp⟩
  · apply hg.blockPart.attempt.bind
    intro r hr
    cases r with
    | error d => exact Gives.skip fun _ => Gives.skip fun _ => Gives.pure hstmts
    | ok part =>
      have hpart := hr part rfl
      cases part with
      | stmt s =>
        apply Gives.ite
        · exact Gives.pure (Array.forall_mem_push.mpr ⟨hpart, hstmts⟩)
        · exact Gives.skip fun _ => Gives.pure hstmts
      | tail e => exact Gives.pure ⟨hstmts, by simpa using hpart⟩
      | nothing => exact Gives.pure ⟨hstmts, by simp⟩

theorem blockTail {found : Option Expr} (hfound : ∀ e ∈ found, Bounded levels (.expr e)) :
    Gives (g.blockTail found) fun tail => ∀ e ∈ tail, Bounded levels (.expr e) := by
  cases found with
  | some value => exact Gives.pure hfound
  | none => exact hg.expression

theorem blockBody : Gives g.blockBody fun b => Bounded (levels + 1) (.block b) := by
  apply Gives.skip
  intro opening
  apply (Gives.loop (fun _ h => hg.blockRound h) (by simp)).bind
  intro ⟨stmts, found⟩ ⟨hstmts, hfound⟩
  apply (hg.blockTail hfound).bind
  intro tail htail
  apply Gives.skip
  intro _
  apply Gives.skip
  intro span
  apply Gives.pure
  apply Bounded.mk
  intro b hb
  simp only [below, rising, List.mem_append, List.mem_map] at hb
  rcases hb with ⟨_, ⟨s, hs, rfl⟩, rfl⟩ | ⟨_, ⟨e, he, rfl⟩, rfl⟩
  · exact hstmts s (by simpa using hs)
  · exact htail e (by simpa using he)

/-- Every rule that opens a level has one level more for its trees than those it is made of. -/
theorem above : g.above.Fit (levels + 1) where
  unary := hg.operand.nested
  binary _ least hleft := (hg.binaryChain hleft least).nested
  block := hg.blockBody.nested
  path segment place := (hg.pathFrom segment place).nested

end Fit

theorem closed_fit : Level.closed.Fit 0 where
  unary := Gives.failHere _
  binary _ _ _ := Gives.failHere _
  block := Gives.failHere _
  path _ _ := Gives.failHere _

theorem withRoom_fit (room : Nat) : (withRoom room).Fit room := by
  induction room with
  | zero => exact closed_fit
  | succ room ih => exact ih.above

end Level

end FrontEnd.Grammar
