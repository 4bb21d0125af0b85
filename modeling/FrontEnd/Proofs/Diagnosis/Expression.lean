import FrontEnd.Proofs.Acceptance.Expression
import FrontEnd.Proofs.Diagnosis.Path

/-! Diagnostics of expressions. Only the blocks inside an expression record any, and what they
record ends no later than the expression does. That holds of the expression without the parentheses
around it too, whose span ends before the cursor. -/
namespace FrontEnd.Grammar

open Parse

variable {α β : Type} {s t : State}

/-- An expression was read up to the cursor. What was recorded ends no later than the expression,
only closing parentheses stand between its end and the cursor, and its tokens show what it is if it
cannot be a statement. -/
structure Settled (e : Expr) (t : State) : Prop where
  orderly : t.Orderly e.span.stop
  nonempty : e.span.start < e.span.stop
  shown : e.canStandAlone = false → e.kind.Shown t.lexeme e.span
  stop_le : e.span.stop ≤ t.pos
  closed : ∀ i, e.span.stop ≤ i → i < t.pos → (t.lexeme i).kind = .closeParen

/-- An expression was read that starts here. -/
def SettledFrom (s : State) (e : Expr) (t : State) : Prop :=
  s.pos ≤ e.span.start ∧ Settled e t

/-- An expression was read, or none starts here. -/
def SettledOrNone (s : State) (e? : Option Expr) (t : State) : Prop :=
  match e? with
  | none => t = s ∧ ¬ StartsExpr (s.lexeme s.pos)
  | some e => SettledFrom s e t

/-- A block was read from its opening brace to its closing one. -/
structure Braced (s : State) (b : Block) (t : State) : Prop where
  span : b.span = ⟨s.pos, t.pos⟩
  lt : s.pos < t.pos
  orderly : t.Orderly t.pos
  opening : (t.lexeme s.pos).kind = .openCurly
  closing : (t.lexeme (t.pos - 1)).kind = .closeCurly

/-- The rules of the level report what is borne out by the tokens, in order. -/
structure Level.Accurate (g : Level) : Prop where
  sound : g.Sound
  unary : ∀ s, s.Ready → Reports g.unary s (SettledOrNone s)
  binary : ∀ s left least, s.Valid → Settled left s →
    Reports (g.binary left least) s fun e t => e.span.start = left.span.start ∧ Settled e t
  block : ∀ s, s.Ready → Reports g.block s (Braced s)
  path : g.PathReports

namespace Settled

variable {e : Expr}

theorem ready (h : Settled e t) (ht : t.Valid) : t.Ready :=
  .of_orderly ht h.orderly (Nat.le_succ_of_le h.stop_le)

/-- A closing parenthesis behind an expression is no part of it. -/
theorem next (h : Settled e t) (hclose : t.current.kind = .closeParen) : Settled e t.next where
  orderly := h.orderly.next
  nonempty := h.nonempty
  shown := h.shown
  stop_le := Nat.le_succ_of_le h.stop_le
  closed i hi hlt := by
    by_cases heq : i = t.pos
    · rw [heq]
      exact hclose
    · have hpos : i < t.pos + 1 := hlt
      exact h.closed i hi (by omega)

/-- An expression that ends where another one does. -/
theorem of_last {e' : Expr} (h : Settled e' t) (hstop : e.span.stop = e'.span.stop)
    (hlt : e.span.start < e'.span.stop)
    (hshown : e.canStandAlone = false → e.kind.Shown t.lexeme e.span) : Settled e t where
  orderly := hstop ▸ h.orderly
  nonempty := hstop ▸ hlt
  shown := hshown
  stop_le := hstop ▸ h.stop_le
  closed := hstop ▸ h.closed

theorem withDepth (h : Settled e t) (depth : Nat) : Settled e (t.withDepth depth) :=
  ⟨h.orderly.withDepth depth, h.nonempty, h.shown, h.stop_le, h.closed⟩

end Settled

/-- An expression that ends at the cursor. -/
theorem SettledFrom.of_span {e : Expr} {i : Nat} (hspan : e.span = ⟨i, t.pos⟩) (hi : s.pos ≤ i)
    (hlt : i < t.pos) (horderly : t.Orderly t.pos)
    (hshown : e.canStandAlone = false → e.kind.Shown t.lexeme ⟨i, t.pos⟩) : SettledFrom s e t := by
  unfold SettledFrom
  rw [hspan]
  refine ⟨hi, ⟨?_, ?_, ?_, ?_, ?_⟩⟩
  · rw [hspan]
    exact horderly
  · rw [hspan]
    exact hlt
  · rw [hspan]
    exact hshown
  · exact Nat.le_of_eq (congrArg TokenRange.stop hspan)
  · intro i hi hlt
    rw [hspan] at hi
    exact absurd hlt (Nat.not_lt_of_le hi)

/-- A block is an expression, and it may be a statement. -/
theorem Braced.settled {b : Block} (h : Braced s b t) : SettledFrom s (.block b) t := by
  refine .of_span h.span (Nat.le_refl _) h.lt h.orderly ?_
  intro halone
  cases halone

/-- The value of a block that must have none is reported on the whole block. -/
theorem Braced.fail_tail {b : Block} {post : α → State → Prop} (h : Braced s b t) :
    Reports (fail ⟨.actionTail, b.span⟩ : Parse α) t post := by
  rw [h.span]
  exact .fail h.orderly ⟨h.lt, h.opening, h.closing⟩ (Nat.le_refl _) (Nat.le_succ _)

theorem Reports.rangeBetween {start stop : Nat} {next : TokenRange → Parse β}
    {after : β → State → Prop} (h : start ≤ stop) (hnext : Reports (next ⟨start, stop⟩) s after) :
    Reports (Grammar.rangeBetween start stop >>= next) s after :=
  .of_run_eq (run_bind (run_rangeBetween h)) (Grows.refl s) hnext

theorem Reports.missingExpression {post : α → State → Prop} (hs : s.Ready)
    (h : ¬ StartsExpr (s.lexeme s.pos)) (context : String) :
    Reports (Grammar.missingExpression context : Parse α) s post :=
  .look (.failHere hs ⟨s.pos, rfl, rfl, h⟩)

/-- Two operands and the operator between them. -/
theorem Settled.join {left right : Expr} {operation : Operation} {u : State}
    (hleft : Settled left t) (hop : Operation.binary? (t.lexeme t.pos) = some operation)
    (htu : Grows t.next u) (hright : SettledFrom t.next right u) :
    (left.join ⟨operation, .single t.pos⟩ right).span.start = left.span.start ∧
      Settled (left.join ⟨operation, .single t.pos⟩ right) u := by
  obtain ⟨hstart, hsettled⟩ := hright
  have hbefore := hleft.nonempty
  have hend := hleft.stop_le
  have hafter := hsettled.nonempty
  have hnext : t.pos + 1 ≤ right.span.start := hstart
  have hspan : (left.join ⟨operation, .single t.pos⟩ right).span =
      ⟨left.span.start, right.span.stop⟩ :=
    TokenRange.clamped_of_le (by omega)
  -- nothing was read since the right operand, and the operator stands between the two
  refine ⟨by rw [hspan], hsettled.of_last (by rw [hspan]) ?_ ?_⟩
  · rw [hspan]
    show left.span.start < right.span.stop
    omega
  · intro halone
    have hassign : operation ≠ .assign := beq_eq_false_iff_ne.mp halone
    refine ⟨t.pos, operation, ?_, ?_, ?_, hassign⟩
    · rw [hspan]
      show left.span.start < t.pos
      omega
    · rw [hspan]
      show t.pos + 1 < right.span.stop
      omega
    · rw [htu.lexeme]
      exact hop

/-- An operand and the operator before it. -/
theorem SettledFrom.prefixed {e : Expr} (h : SettledFrom s.next e t) (op : Operator)
    (hop : (Operation.unary? (t.lexeme s.pos)).isSome = true) :
    SettledFrom s (.unary op e ⟨s.pos, e.span.stop⟩) t := by
  obtain ⟨hstart, hsettled⟩ := h
  have hstart' : s.pos + 1 ≤ e.span.start := hstart
  have hnonempty := hsettled.nonempty
  refine ⟨Nat.le_refl _, hsettled.of_last rfl ?_ fun _ => hop⟩
  show s.pos < e.span.stop
  omega

namespace SignatureAt

variable {T : Nat → Lexeme} {i j : Nat} {kind : FunctionKind} {params : List Ident}

theorem arrow {name : Option Ident} (h : SignatureAt T i j kind name params) :
    ∃ k, j = k + 1 ∧ (T k).kind = .arrow := by
  obtain ⟨-, -, -, -, -, harrow⟩ := h
  exact ⟨_, rfl, harrow⟩

theorem keyword {name : Option Ident} (h : SignatureAt T i j kind name params) :
    ((T i).keyword?.bind Keyword.functionKind?).isSome = true := by
  rw [h.functionKind?]
  rfl

/-- Without a name the parameters follow the keyword. -/
theorem openParen (h : SignatureAt T i j kind none params) : (T (i + 1)).kind = .openParen := by
  obtain ⟨-, hname, hopen, -, -, -⟩ := h
  cases hname
  exact hopen

end SignatureAt

namespace Level

variable {g : Level}

theorem Accurate.expression (hg : g.Accurate) (hs : s.Ready) :
    Reports g.expression s (SettledOrNone s) := by
  unfold Level.expression
  refine (hg.unary s hs).bind ?_
  intro u? t hst hu
  cases u? with
  | none => exact .pure hu
  | some u =>
    obtain ⟨hstart, hsettled⟩ := hu
    refine (hg.binary t u 0 (hst.valid hs.valid) hsettled).map ?_
    rintro e v _ ⟨hstart', hsettled'⟩
    exact ⟨hstart' ▸ hstart, hsettled'⟩

theorem Accurate.requiredExpression (hg : g.Accurate) (hs : s.Ready) (context : String) :
    Reports (g.requiredExpression context) s (SettledFrom s) := by
  unfold Level.requiredExpression
  refine (hg.expression hs).bind ?_
  intro e? t _ he
  cases e? with
  | some e => exact .pure he
  | none =>
    obtain ⟨rfl, hno⟩ := he
    exact .missingExpression hs hno context

/-- A right operand that goes on starts where it did. -/
theorem Accurate.operandRound (hg : g.Accurate) {level : Nat} {right : Expr} (ht : t.Valid)
    (h : SettledFrom s right t) :
    Reports (g.operandRound level right) t (AfterRound (SettledFrom s) (SettledFrom s)) := by
  have hbinary : ∀ least, Reports (Round.again <$> g.binary right least : Parse (Round Expr Expr))
      t (AfterRound (SettledFrom s) (SettledFrom s)) := by
    intro least
    refine (hg.binary t right least ht h.2).map ?_
    rintro e u _ ⟨hstart, hsettled⟩
    exact ⟨hstart ▸ h.1, hsettled⟩
  unfold Level.operandRound
  refine .look ?_
  split
  · exact .pure h
  · exact .ite (fun _ => hbinary _) fun _ => .ite (fun _ => hbinary _) fun _ => .pure h

theorem Accurate.rightOperand (hg : g.Accurate) (hs : s.Ready) (level : Nat) :
    Reports (g.rightOperand level) s (SettledFrom s) := by
  unfold Level.rightOperand
  refine (hg.unary s hs).bind ?_
  intro first? t hst hfirst
  cases first? with
  | none =>
    obtain ⟨rfl, hno⟩ := hfirst
    exact .missingExpression hs hno _
  | some first =>
    refine Reports.loop (SettledFrom s) hfirst ?_
    intro right u htu hright
    exact hg.operandRound (htu.valid (hst.valid hs.valid)) hright

theorem Accurate.binaryRound (hg : g.Accurate) {left : Expr} (ht : t.Valid)
    (h : Settled left t) (least : Nat) :
    Reports (g.binaryRound least left) t
      (AfterRound (fun e u => e.span.start = left.span.start ∧ Settled e u)
        fun e u => e.span.start = left.span.start ∧ Settled e u) := by
  unfold Level.binaryRound
  refine .look ?_
  split
  · exact .pure ⟨rfl, h⟩
  · rename_i level associativity hpower
    refine .ite (fun _ => .pure ⟨rfl, h⟩) fun _ => ?_
    obtain ⟨operation, hop, -, -⟩ := Lexeme.bindingPower?_eq_some hpower
    have hend : t.current.kind ≠ .endMark := kind_ne_endMark_of_binary? hop
    refine .of_run_eq (run_bind (run_operator_between ht hop)) (Grows.next hend) ?_
    refine (hg.rightOperand ((h.ready ht).next hend) level).bind ?_
    intro right u htu hright
    exact .pure (h.join hop htu hright)

theorem Accurate.binaryChain (hg : g.Accurate) {left : Expr} (hs : s.Valid)
    (h : Settled left s) (least : Nat) :
    Reports (g.binaryChain left least) s fun e t =>
      e.span.start = left.span.start ∧ Settled e t := by
  unfold Level.binaryChain
  refine Reports.loop (fun e t => e.span.start = left.span.start ∧ Settled e t) ⟨rfl, h⟩ ?_
  rintro e t hst ⟨hstart, hsettled⟩
  have hround := hg.binaryRound (hst.valid hs) hsettled least
  rwa [hstart] at hround

/-- One more expression of a list, and the comma behind it. -/
theorem Accurate.elementRound (hg : g.Accurate) (hs : s.Ready) (elements : Array Expr) :
    Reports (g.elementRound elements) s
      (AfterRound (fun _ t => t.Ready) fun _ t => t.Ready) := by
  unfold Level.elementRound
  refine (hg.expression hs).bind ?_
  intro e? t hst he
  cases e? with
  | none =>
    obtain ⟨rfl, -⟩ := he
    exact .pure hs
  | some e =>
    have ht := he.2.ready (hst.valid hs.valid)
    refine .accept (by decide) (fun hcomma => .pure (ht.next ?_)) fun _ => .pure ht
    rw [hcomma]
    decide

theorem Accurate.argumentRound (hg : g.Accurate) (hs : s.Ready) (args : Array Expr) :
    Reports (g.argumentRound args) s (AfterRound (fun _ t => t.Ready) fun _ t => t.Ready) := by
  unfold Level.argumentRound
  exact .isAt (fun _ => .pure hs) fun _ => hg.elementRound hs args

/-- Arguments end with the parenthesis that closes them. -/
theorem Accurate.arguments (hg : g.Accurate) (hs : s.Ready) :
    Reports g.arguments s fun _ t => s.pos < t.pos ∧ t.Orderly t.pos := by
  unfold Level.arguments
  refine (Reports.expect hs (by decide) _).bind ?_
  rintro token t hst ⟨-, -, rfl⟩
  refine (Reports.loop (fun _ u => u.Ready) (hs.of_clean hst rfl)
    fun args u _ hu => hg.argumentRound hu args).bind ?_
  intro args u htu hu
  refine (Reports.expect hu (by decide) _).bind ?_
  rintro token v _ ⟨-, -, rfl⟩
  exact .pure ⟨Nat.lt_succ_of_lt htu.pos, hu.orderly.next⟩

/-- What stands in parentheses is settled before they are closed; a tuple ends with them. -/
theorem Accurate.parenthesizedFrom (hg : g.Accurate) (hs : s.Valid)
    (hopen : s.current.kind = .openParen) (hst : Grows s.next t) {first : Expr}
    (hfirst : SettledFrom s.next first t) :
    Reports (g.parenthesizedFrom s.pos first) t (SettledFrom s) := by
  obtain ⟨hstart, hsettled⟩ := hfirst
  have hend : s.current.kind ≠ .endMark := ne_of_eq_of_ne hopen (by decide)
  have ht := hsettled.ready (hst.valid (hs.next hend))
  have hpos : s.pos + 1 ≤ t.pos := hst.pos
  unfold Level.parenthesizedFrom
  -- behind a comma it is a tuple, with the parentheses in its range, else they are left out
  refine .accept (by decide) (fun hcomma => ?_) fun _ => ?_
  · have hcomma' : t.current.kind ≠ .endMark := ne_of_eq_of_ne hcomma (by decide)
    refine (Reports.loop (fun _ u => u.Ready) (ht.next hcomma')
      fun elements u _ hu => hg.elementRound hu elements).bind ?_
    intro elements u htu hu
    refine (Reports.expect hu (by decide) _).bind ?_
    rintro token v huv ⟨hclose, -, rfl⟩
    have hlex : u.next.lexeme = s.lexeme := (hst.trans ((Grows.next hcomma').trans htu)).lexeme
    have hpos' : t.pos + 1 ≤ u.pos := htu.pos
    have hlt : s.pos < u.next.pos := by
      rw [State.next_pos]
      omega
    refine .rangeFrom (.pure ?_)
    refine .of_span (TokenRange.clamped_of_le (Nat.le_of_lt hlt)) (Nat.le_refl _) hlt
      hu.orderly.next fun _ => ⟨?_, hclose⟩
    rw [hlex]
    exact hopen
  · refine (Reports.expect ht (by decide) _).bind ?_
    rintro token u _ ⟨hclose, -, rfl⟩
    exact .pure ⟨Nat.le_of_succ_le hstart, hsettled.next hclose⟩

theorem Accurate.parenthesized (hg : g.Accurate) (hs : s.Ready)
    (hopen : s.current.kind = .openParen) : Reports g.parenthesized s (SettledFrom s) := by
  have hend : s.current.kind ≠ .endMark := ne_of_eq_of_ne hopen (by decide)
  unfold Level.parenthesized
  refine (Reports.advance hend).bind ?_
  rintro opening t hst ⟨rfl, rfl⟩
  rw [hs.valid.index_current]
  have hnext := hs.next hend
  refine (hg.expression hnext).bind ?_
  intro first? u hu hfirst
  cases first? with
  | some first => exact hg.parenthesizedFrom hs.valid hopen hu hfirst
  | none =>
    obtain ⟨rfl, hno⟩ := hfirst
    have hlt : s.pos < s.next.next.pos := by
      simp only [State.next_pos]
      omega
    refine .accept (by decide) (fun hclose => .rangeFrom (.pure ?_))
      fun _ => .missingExpression hnext hno _
    exact .of_span (TokenRange.clamped_of_le (Nat.le_of_lt hlt)) (Nat.le_refl _) hlt
      hnext.orderly.next fun _ => ⟨hopen, hclose⟩

/-- The body of a function, behind its arrow. -/
theorem Accurate.functionBody (hg : g.Accurate) (hs : s.Ready) (harrow : s.Follows .arrow)
    (kind : FunctionKind) : Reports (g.functionBody kind) s (SettledFrom s) := by
  cases kind with
  | compute => exact hg.requiredExpression hs _
  | action =>
    unfold Level.functionBody
    refine .isAt (fun _ => ?_) fun hopen => ?_
    · refine (hg.block s hs).bind ?_
      intro block t _ hblock
      exact .ite (fun _ => hblock.fail_tail) fun _ => .pure hblock.settled
    · -- no block was read, so the cursor is still behind the arrow
      refine .failBehind hs harrow fun i hi hk => ⟨i, rfl, hk, ?_⟩
      rw [← hi]
      exact hopen

theorem Accurate.function (hg : g.Accurate) (hs : s.Ready) {kind : FunctionKind}
    (hkind : s.current.keyword?.bind Keyword.functionKind? = some kind) :
    Reports g.function s (SettledFrom s) := by
  unfold Level.function
  refine (reports_signature hs hkind).bind ?_
  rintro header t hst ⟨-, hstart, hclean, hlt, hat⟩
  have harrow : t.Follows .arrow := by
    rw [State.Follows, hst.lexeme]
    exact hat.arrow
  refine (hg.functionBody (hs.of_clean hst hclean) harrow header.kind).bind ?_
  rintro body u htu ⟨hbody, hsettled⟩
  have hnonempty := hsettled.nonempty
  rw [hstart]
  refine .rangeBetween (by omega) (.pure ⟨Nat.le_refl _, ?_⟩)
  refine hsettled.of_last rfl ?_ fun _ => ?_
  · show s.pos < body.span.stop
    omega
  · show ((u.lexeme s.pos).keyword?.bind Keyword.functionKind?).isSome = true
    rw [htu.lexeme, hst.lexeme]
    exact hat.keyword

theorem Accurate.keywordExpression (hg : g.Accurate) (hs : s.Ready) {keyword : Keyword}
    (hkey : s.current.keyword? = some keyword) :
    Reports (g.keywordExpression keyword) s (SettledFrom s) := by
  unfold Level.keywordExpression
  split
  · rename_i kind hkind
    have hfunction : s.current.keyword?.bind Keyword.functionKind? = some kind := by
      rw [hkey]
      exact hkind
    exact hg.function hs hfunction
  · exact .failHere hs ⟨s.pos, rfl, hkey⟩

/-- A path in an expression, behind its first segment and the double colon. The rule for paths
records nothing. -/
theorem Accurate.pathExpression (hg : g.Accurate) (hs : s.Ready) (hword : s.current.kind = .word)
    (hcolon : s.next.current.kind = .doubleColon) {segment : Ident}
    (hsegment : segment.span = .single s.pos) :
    Reports (Expr.path <$> g.path segment .expression) s.next.next (SettledFrom s) := by
  have hready : s.next.next.Ready :=
    (hs.next (ne_of_eq_of_ne hword (by decide))).next (ne_of_eq_of_ne hcolon (by decide))
  refine ((hg.path _ segment .expression hready (State.follows_next hcolon)).and
    (hg.sound.path _ segment .expression hready.valid)).map ?_
  rintro p u hu ⟨hquiet, hlt, hspan, -⟩
  have hlt' : s.pos + 2 < u.pos := hlt
  have horderly : u.Orderly (s.pos + 1) := hs.orderly.next.next.of_clean hu hquiet
  have hspan' : p.span = ⟨s.pos, u.pos⟩ := by
    rw [hspan, hsegment]
    exact TokenRange.clamped_of_le (by show s.pos ≤ u.pos; omega)
  refine .of_span hspan' (Nat.le_refl _) (by omega) (horderly.mono (by omega)) fun _ => ?_
  rw [hu.lexeme]
  exact ⟨hword, hcolon⟩

theorem Accurate.named (hg : g.Accurate) (hs : s.Ready) (hword : s.current.kind = .word)
    (hkey : s.current.keyword? = none) : Reports (g.named s.current) s (SettledFrom s) := by
  have hend : s.current.kind ≠ .endMark := ne_of_eq_of_ne hword (by decide)
  have hident : (Ident.ofToken s.current).span = .single s.pos := by
    show TokenRange.single s.current.index = _
    rw [hs.valid.index_current]
  unfold Level.named
  refine (Reports.advance hend).bind ?_
  rintro token t hst ⟨-, rfl⟩
  refine .accept (by decide) (fun hcolon => ?_) fun _ => .isAt (fun _ => ?_) fun _ => ?_
  · exact hg.pathExpression hs hword hcolon hident
  · refine (hg.arguments (hs.next hend)).bind ?_
    rintro args u hu ⟨hlt, horderly⟩
    have hlt' : s.pos + 1 < u.pos := hlt
    rw [hs.valid.index_current]
    refine .rangeFrom (.pure ?_)
    refine .of_span (TokenRange.clamped_of_le (by omega)) (Nat.le_refl _) (by omega) horderly ?_
    intro halone
    cases halone
  · exact .pure (.of_span hident (Nat.le_refl _) (Nat.lt_succ_self _) hs.orderly.next
      fun _ => ⟨rfl, hword, hkey⟩)

theorem Accurate.primary (hg : g.Accurate) (hs : s.Ready) :
    Reports g.primary s (IfSome (SettledFrom s)) := by
  unfold Level.primary
  refine .look ?_
  split
  · rename_i kind hliteral
    have hend : s.current.kind ≠ .endMark := by
      intro hk
      simp [LiteralKind.ofLexeme?, hk] at hliteral
    refine (Reports.advance hend).bind ?_
    rintro token t _ ⟨-, rfl⟩
    rw [hs.valid.index_current]
    refine .pure_some (.of_span rfl (Nat.le_refl _) (Nat.lt_succ_self _) hs.orderly.next ?_)
    refine fun _ => ⟨rfl, ?_⟩
    have hliteral' : LiteralKind.ofLexeme? (s.lexeme s.pos) = some kind := hliteral
    show (LiteralKind.ofLexeme? (s.lexeme s.pos)).isSome = true
    rw [hliteral']
    rfl
  · split
    · rename_i hword
      split
      · rename_i keyword hkey
        exact .map_some (hg.keywordExpression hs hkey)
      · rename_i hkey
        exact .map_some (hg.named hs hword hkey)
    · rename_i hopen
      exact .map_some (hg.parenthesized hs hopen)
    · refine (hg.block s hs).bind ?_
      intro block t _ hblock
      exact .pure_some hblock.settled
    · exact .pure_none

theorem Accurate.callRound (hg : g.Accurate) (ht : t.Valid) {callee : Expr}
    (h : SettledFrom s callee t) :
    Reports (g.callRound callee) t (AfterRound (SettledFrom s) (SettledFrom s)) := by
  obtain ⟨hstart, hsettled⟩ := h
  unfold Level.callRound
  refine .isAt (fun _ => ?_) fun _ => .pure ⟨hstart, hsettled⟩
  refine (hg.arguments (hsettled.ready ht)).bind ?_
  rintro args u hu ⟨hlt, horderly⟩
  have hnonempty := hsettled.nonempty
  have hstop := hsettled.stop_le
  refine .rangeFrom (.pure ?_)
  refine .of_span (TokenRange.clamped_of_le (by omega)) hstart (by omega) horderly ?_
  intro halone
  cases halone

theorem Accurate.called (hg : g.Accurate) (hs : s.Ready) :
    Reports g.called s (IfSome (SettledFrom s)) := by
  unfold Level.called
  refine (hg.primary hs).bind ?_
  intro callee? t hst hcallee
  cases callee? with
  | none => exact .pure_none
  | some callee =>
    have hloop : Reports (loop g.callRound callee) t (SettledFrom s) := by
      refine Reports.loop (SettledFrom s) (hcallee callee rfl) ?_
      intro e u htu he
      exact hg.callRound (htu.valid (hst.valid hs.valid)) he
    exact hloop.map_some

theorem Accurate.operand (hg : g.Accurate) (hs : s.Ready) :
    Reports g.operand s (SettledOrNone s) := by
  have hsettled : Reports g.operand s (IfSome (SettledFrom s)) := by
    unfold Level.operand
    refine .look ?_
    split
    · exact hg.called hs
    · rename_i operation hunary
      obtain ⟨hrun, hvalid⟩ := run_operator_before hs.valid hunary
      have hend : s.current.kind ≠ .endMark := by
        intro hk
        simp [Operation.unary?, hk] at hunary
      refine .of_run_eq (run_bind hrun) (Grows.next hend) ?_
      have hnext := hs.next hend
      refine (hg.unary _ hnext).bind ?_
      intro e? t ht he
      cases e? with
      | none =>
        obtain ⟨rfl, hno⟩ := he
        exact .missingExpression hnext hno _
      | some e =>
        have hop : Operation.unary? (t.lexeme s.pos) = some operation := by
          rw [ht.lexeme]
          exact hunary
        have hprefixed := SettledFrom.prefixed he ⟨operation, .single s.pos⟩
          (Option.isSome_of_mem hop)
        rw [hs.valid.index_current]
        exact .rangeBetween (Nat.le_of_lt hprefixed.2.nonempty) (.pure_some hprefixed)
  -- that there is none where no expression starts is known of the rule already
  refine (hsettled.and (hg.sound.operand hs.valid)).mono ?_
  rintro (_ | e) t _ ⟨he, hread⟩
  · exact hread
  · exact he e rfl

end Level

end FrontEnd.Grammar
