import FrontEnd.Proofs.Parallel.Expression
import FrontEnd.Proofs.Reading.Statement

/-! Statements in two runs side by side. A function header in a block is read on trial: where it
does not fit the cursor goes back, and with it what the trial has looked at. That the two runs agree
on the trial is left open here; the rest of the block settles it. -/
namespace FrontEnd.Grammar

open Parse

variable {α : Type} {K : Link} {s t : State}

/-- A function header does not fit, and what shows that is not shown to both runs. -/
def Link.Undecided (K : Link) (s : State) : Prop :=
  ∃ d t, declarationHeader s = .error d t ∧ ¬ K.shown t.pos

/-- What excuses a run of the rule for statements. A statement is closed by its last token; whether
there is one may depend on the token at the cursor, and in a block on a header. -/
def Link.Unsure (K : Link) (inBlock : Bool) : Option Stmt → State → Prop
  | some stmt, s => K.Beyond false stmt s
  | none, s => K.Beyond true () s ∨ inBlock = true ∧ K.Undecided s

/-- The same placement for runs that share all their diagnostics. -/
def Link.strict (K : Link) : Link :=
  { K with bad := fun _ => False }

theorem Linked.strict (h : Linked K s t) : Linked K.strict s t :=
  ⟨h.lexeme, h.size, h.pos, h.errors, h.depth, h.valid, h.valid'⟩

theorem Linked.of_strict (h : Linked K.strict s t) : Linked K s t :=
  ⟨h.lexeme, h.size, h.pos, h.errors, h.depth, h.valid, h.valid'⟩

theorem Link.Unsure.of_beyond {inBlock : Bool} {stmt? : Option Stmt}
    (h : K.Beyond false stmt? s) : K.Unsure inBlock stmt? s := by
  cases stmt? with
  | none => exact .inl h.ahead
  | some stmt => exact h

namespace Closes

variable [Moves α] {p q p' q' : Parse α}

theorem ite {c : Prop} [Decidable c] (hp : Closes K p q) (hq : Closes K p' q') :
    Closes K (if c then p else p') (if c then q else q') := by
  split
  · exact hp
  · exact hq

theorem fail (d : Diagnostic) :
    Closes K (Parse.fail d : Parse α) (Parse.fail (d.shift K.offset) : Parse α) where
  follows := Follows.fail d
  passes hrun := by cases hrun

theorem failHere (cause : DiagnosticCause) :
    Closes K (Grammar.failHere cause : Parse α) (Grammar.failHere cause) where
  follows := Follows.failHere cause
  passes hrun := by cases hrun

theorem toSome {β : Type} [Shift β] {p q : Parse β} (h : Closes K p q) :
    Closes K (some <$> p) (some <$> q) :=
  h.map fun _ _ hab => congrArg some hab

/-- A statement that was read in full. -/
theorem unsure {inBlock : Bool} {p q : Parse (Option Stmt)} (h : Closes K p q) :
    Follows K (K.Unsure inBlock) p q :=
  h.follows.mono fun _ _ hbeyond => .of_beyond hbeyond

/-- The end of a statement behind its parts. -/
theorem ending (start : Nat) {f f' : TokenRange → Stmt}
    (hf : ∀ span, f' (span.shift K.offset) = (f span).shift K.offset) :
    Closes K
      (Grammar.expectSemicolon >>= fun _ => Grammar.rangeFrom start >>= fun span =>
        Pure.pure (f span))
      (Grammar.expectSemicolon >>= fun _ => Grammar.rangeFrom (start + K.offset) >>= fun span =>
        Pure.pure (f' span)) := by
  refine expectSemicolon.andThen ?_
  intro _ _ _
  refine (Follows.rangeFrom start).bind ?_
  rintro span _ rfl
  exact Follows.pure (hf span)

theorem expressionStatement (e : Expr) (start : Nat) :
    Closes K (expressionStatement e start)
      (expressionStatement (e.shift K.offset) (start + K.offset)) := by
  unfold Grammar.expressionStatement
  refine Follows.current.close ?_
  rintro token _ ⟨span, rfl⟩
  rw [e.canStandAlone_shift, e.kind_shift, e.span_shift]
  refine ite (failHere _) (ite (fail ⟨.cannotStandAlone e.kind, e.span⟩) ?_)
  refine ending start fun span => ?_
  rw [Stmt.shift]

theorem resourceImport (start : Nat) :
    Closes K (resourceImport start) (resourceImport (start + K.offset)) := by
  refine (Follows.expect (by decide) _).close ?_
  rintro resource _ ⟨span, rfl⟩
  refine Follows.current.close ?_
  rintro token _ ⟨span', rfl⟩
  refine ite (failHere _) (Follows.advance.close ?_)
  intro _ _ _
  refine (Follows.expectName _).close ?_
  rintro localName _ rfl
  refine ending start fun span => ?_
  rw [Stmt.shift, Literal.shift, TokenRange.shift_single]
  rfl

end Closes

theorem Follows.declarationHeader :
    Follows K (K.Beyond true) declarationHeader declarationHeader := by
  refine signature.bind ?_
  rintro ⟨kind, name, params, start⟩ _ rfl
  cases name with
  | none =>
    have hstart : start + K.offset + 1 = start + 1 + K.offset := Nat.add_right_comm start _ 1
    show Follows K _ (Parse.fail ⟨_, .single (start + 1)⟩)
      (Parse.fail ⟨_, .single (start + K.offset + 1)⟩)
    rw [hstart]
    exact failAt _ _
  | some name =>
    refine current.bind ?_
    rintro token _ ⟨span, rfl⟩
    refine ite (pure rfl) ?_
    cases kind with
    | action => exact failHere _
    | compute => exact failHere _

namespace Closes

variable {g h : Level} (hg : g.Parallel K h)

include hg

theorem bindingFrom (start : Nat) (mutable : Bool) :
    Closes K (g.bindingFrom start mutable) (h.bindingFrom (start + K.offset) mutable) := by
  refine (Follows.expectName _).close ?_
  rintro name _ rfl
  refine (Follows.expect (by decide) _).close ?_
  intro _ _ _
  refine (Follows.requiredExpression hg _).close ?_
  rintro value _ rfl
  refine ending start fun span => ?_
  rw [Stmt.shift]
  rfl

theorem bindingStatement : Closes K g.bindingStatement h.bindingStatement := by
  refine Follows.advance.close ?_
  rintro opening _ ⟨span, rfl⟩
  refine (Follows.isAtKeyword .varKey).close ?_
  rintro mutable _ rfl
  refine ite (Follows.advance.close ?_) (bindingFrom hg opening.index false)
  intro _ _ _
  exact bindingFrom hg opening.index true

theorem declared (header : Signature) (name : Ident) :
    Closes K (g.declared header name)
      (h.declared (Shift.shift K.offset header) (name.shift K.offset)) := by
  refine hg.block.andThen ?_
  rintro body _ rfl
  have htail : (Shift.shift K.offset body).hasTail = body.hasTail := body.hasTail_shift _
  have hspan : (Shift.shift K.offset body).span = body.span.shift K.offset := body.span_shift _
  rw [htail, hspan]
  refine Follows.ite (Follows.fail ⟨.actionTail, body.span⟩) ((Follows.rangeBetween _ _).bind ?_)
  rintro span _ rfl
  refine Follows.pure ?_
  show _ = some (Stmt.shift K.offset (.function header.kind name header.params body span))
  rw [Stmt.shift]
  rfl

theorem returnStatement : Closes K g.returnStatement h.returnStatement := by
  refine Follows.advance.close ?_
  rintro opening _ ⟨span, rfl⟩
  refine (Follows.requiredExpression hg _).close ?_
  rintro value _ rfl
  refine ending opening.index fun span => ?_
  rw [Stmt.shift]
  rfl

theorem pathImport (start : Nat) :
    Closes K (g.pathImport start) (h.pathImport (start + K.offset)) := by
  refine (Follows.expectName _).close ?_
  rintro segment _ rfl
  refine (Follows.expect (by decide) _).close ?_
  intro _ _ _
  refine (hg.path segment .importing).close ?_
  rintro p _ rfl
  refine ending start fun span => ?_
  rw [Stmt.shift]
  rfl

theorem importStatement : Closes K g.importStatement h.importStatement := by
  refine Follows.advance.close ?_
  rintro opening _ ⟨span, rfl⟩
  refine Follows.current.close ?_
  rintro token _ ⟨span', rfl⟩
  dsimp only
  split
  · refine Follows.advance.close ?_
    intro _ _ _
    exact resourceImport opening.index
  · exact failHere _
  · exact pathImport hg opening.index

end Closes

namespace Level

theorem run_functionStatement_fault {g : Level} {inBlock : Bool} {f : Fault}
    (h : declarationHeader s = .fault f t) : g.functionStatement inBlock s = .fault f t := by
  have hattempt : attempt declarationHeader s = .fault f t := by
    simp only [attempt, h]
  unfold functionStatement
  rw [run_bind run_mark, bind_apply, hattempt]

end Level

namespace Follows

variable {g h : Level} (hg : g.Parallel K h)

include hg

theorem grows_functionStatement (inBlock : Bool) (s : State) :
    Grows s (g.functionStatement inBlock s).state := by
  have hs := (declarationHeader (K := K)).grows s
  cases hrun : Grammar.declarationHeader s with
  | ok header u =>
    rw [hrun] at hs
    rw [Level.run_functionStatement_ok hrun]
    exact hs.trans ((Closes.declared hg header.1 header.2).follows.grows u)
  | error d u =>
    rw [hrun] at hs
    rw [Level.run_functionStatement_error hrun hs]
    cases inBlock with
    | false => exact hs
    | true => exact Grows.refl s
  | fault f u =>
    rw [hrun] at hs
    rw [Level.run_functionStatement_fault hrun]
    exact hs

/-- A header that is excused excuses the function. A header that does not fit is no diagnostic of
the run, so it is excused only by what it looked at. -/
theorem excused_functionStatement (inBlock : Bool)
    (h : K.strict.Excused (K.strict.Beyond true) (Grammar.declarationHeader s)) :
    K.Excused (K.Unsure inBlock) (g.functionStatement inBlock s) := by
  have hs := (declarationHeader (K := K)).grows s
  cases hrun : Grammar.declarationHeader s with
  | ok header u =>
    rw [hrun] at h
    have hhidden : ¬ K.shown u.pos := by
      rcases h with hbeyond | ⟨_, -, hbad⟩
      · exact hbeyond.not_shown
      · exact hbad.elim
    rw [Level.run_functionStatement_ok hrun]
    refine ((Closes.declared hg header.1 header.2).excused hhidden).mono ?_
    intro _ _ hbeyond
    exact .of_beyond hbeyond
  | error d u =>
    rw [hrun] at h hs
    have hhidden : ¬ K.shown u.pos := by
      rcases h with hbad | hhidden | ⟨_, -, hbad⟩
      · exact hbad.elim
      · exact hhidden
      · exact hbad.elim
    rw [Level.run_functionStatement_error hrun hs]
    cases inBlock with
    | false => exact .inr (.inl hhidden)
    | true => exact .inl (.inr ⟨rfl, d, u, hrun, hhidden⟩)
  | fault f u =>
    rw [Level.run_functionStatement_fault hrun]
    trivial

theorem functionStatement (inBlock : Bool) :
    Follows K (K.Unsure inBlock) (g.functionStatement inBlock) (h.functionStatement inBlock) where
  grows := grows_functionStatement hg inBlock
  run {s t} hst := by
    have hs := (declarationHeader (K := K)).grows s
    have ht := (declarationHeader (K := K)).grows t
    rcases (declarationHeader.run hst.strict).cases with
      ⟨header, _, u, v, hrun, hrun', rfl, huv⟩ | ⟨d, u, v, hrun, hrun', huv⟩ | hex
    · rw [Level.run_functionStatement_ok hrun, Level.run_functionStatement_ok hrun']
      exact (Closes.declared hg header.1 header.2).unsure.run huv.of_strict
    · rw [hrun] at hs
      rw [hrun'] at ht
      rw [Level.run_functionStatement_error hrun hs, Level.run_functionStatement_error hrun' ht]
      cases inBlock with
      | false => exact .error huv.of_strict
      | true => exact .ok rfl hst
    · exact .excused (excused_functionStatement hg inBlock hex)

theorem statementOf (form : StatementForm) (inBlock : Bool) :
    Follows K (K.Unsure inBlock) (g.statementOf form inBlock) (h.statementOf form inBlock) := by
  cases form with
  | binding => exact (Closes.bindingStatement hg).toSome.unsure
  | function => exact functionStatement hg inBlock
  | returning => exact (Closes.returnStatement hg).toSome.unsure
  | importing => exact (Closes.importStatement hg).toSome.unsure

theorem statement (hsound : g.Sound) (inBlock : Bool) :
    Follows K (K.Unsure inBlock) (g.statement inBlock) (h.statement inBlock) := by
  refine look ?_ ?_
  · intro token span
    dsimp only
    cases token.keyword? with
    | some keyword =>
      dsimp only
      cases keyword.statementForm? with
      | some form => exact statementOf hg form inBlock
      | none => exact failHere _
    | none =>
      refine (position (E := fun _ _ => False)).bindWith ?_ (fun _ _ _ _ hno => hno.elim)
      rintro start _ rfl
      refine (expression hg).bindWith ?_ ?_
      · rintro (_ | e) _ rfl
        · exact pure rfl
        · exact (Closes.expressionStatement e start).toSome.unsure
      · rintro (_ | e) s _ _ hbeyond
        · exact .inl (.inl hbeyond)
        · exact ((Closes.expressionStatement e start).toSome.excused hbeyond.not_shown).mono
            fun _ _ hbeyond => .of_beyond hbeyond
  · -- a statement that was read passes the token at the cursor
    intro s hs hhidden
    have hread : Ensures (g.statement inBlock) s _ := hsound.statement hs inBlock
    have hgrows := hread.grows
    show K.Excused _ (g.statement inBlock s)
    cases hrun : g.statement inBlock s with
    | ok stmt? t =>
      rw [hrun] at hgrows
      cases stmt? with
      | none => exact .inl (.inl ⟨s.pos, Nat.lt_succ_of_le hgrows.pos, hhidden⟩)
      | some stmt => exact .inl ⟨s.pos, (hread.ok hrun).2.1, hhidden⟩
    | error d t =>
      rw [hrun] at hgrows
      exact .inr (.inl fun ht => hhidden (K.shown_of_le hgrows.pos ht))
    | fault f t => trivial

end Follows

end FrontEnd.Grammar
