import FrontEnd.Proofs.Parallel.Program

/-! Rules in front of a semicolon. Only statements pass a semicolon, and only blocks record
diagnostics. So where a semicolon comes before any opening brace, every rule below a statement stays
in front of the semicolon and records nothing, and a statement that stops with a diagnostic has done
no more either. -/
namespace FrontEnd.Grammar

open Parse

variable {α β : Type} {s t : State} {n : Nat}

/-- The cursor is not behind the semicolon at place `n`, no brace opens before it, and nothing was
recorded. -/
structure Confined (n : Nat) (s : State) : Prop where
  pos : s.pos ≤ n
  errors : s.errors = []
  semicolon : (s.lexeme n).kind = .semicolon
  unopened : ∀ i < n, (s.lexeme i).kind ≠ .openCurly

/-- The rule leaves a confined state however it ends, unless it stops with a fault. -/
def Confines (n : Nat) (p : Parse α) (s : State) : Prop :=
  match p s with
  | .ok _ t => Confined n t
  | .error _ t => Confined n t
  | .fault _ _ => True

/-- If the rule stops with a diagnostic it leaves a confined state. -/
def Halts (n : Nat) (p : Parse α) (s : State) : Prop :=
  ∀ d t, p s = .error d t → Confined n t

namespace Confined

theorem kind_ne_openCurly (h : Confined n s) : s.current.kind ≠ .openCurly := by
  rcases Nat.lt_or_eq_of_le h.pos with hlt | heq
  · exact h.unopened s.pos hlt
  · rw [State.kind_current, heq, h.semicolon]
    decide

/-- A token that is no semicolon may be passed. -/
theorem next (h : Confined n s) (hk : s.current.kind ≠ .semicolon) : Confined n s.next where
  pos := by
    refine Nat.lt_of_le_of_ne h.pos ?_
    intro heq
    rw [State.kind_current, heq, h.semicolon] at hk
    exact hk rfl
  errors := h.errors
  semicolon := h.semicolon
  unopened := h.unopened

theorem withDepth (h : Confined n s) (depth : Nat) : Confined n { s with depth := depth } :=
  ⟨h.pos, h.errors, h.semicolon, h.unopened⟩

end Confined

theorem kind_ne_semicolon_of_keyword {lexeme : Lexeme} {keyword : Keyword}
    (h : lexeme.keyword? = some keyword) : lexeme.kind ≠ .semicolon := by
  rw [Lexeme.kind_eq_word_of_keyword? h]
  decide

theorem kind_ne_semicolon_of_isKeyword {lexeme : Lexeme} {keyword : Keyword}
    (h : ¬ lexeme.isKeyword keyword = false) : lexeme.kind ≠ .semicolon :=
  kind_ne_semicolon_of_keyword (beq_iff_eq.mp (Bool.not_eq_false _ ▸ h))

namespace Confines

variable {p : Parse α} {next : α → Parse β}

theorem pure {a : α} (h : Confined n s) : Confines n (pure a : Parse α) s := h

theorem fail (d : Diagnostic) (h : Confined n s) : Confines n (fail d : Parse α) s := h

theorem raise (f : Fault) : Confines n (raise f : Parse α) s := trivial

theorem bind (hp : Confines n p s)
    (hnext : ∀ a t, Confined n t → Confines n (next a) t) : Confines n (p >>= next) s := by
  unfold Confines at hp ⊢
  rw [bind_apply]
  cases hrun : p s with
  | ok a t =>
    rw [hrun] at hp
    exact hnext a t hp
  | error d t =>
    rw [hrun] at hp
    exact hp
  | fault f t => trivial

theorem map {f : α → β} (hp : Confines n p s) : Confines n (f <$> p) s := by
  rw [map_eq_pure_bind]
  exact hp.bind fun _ _ h => h

theorem attempt (hp : Confines n p s) : Confines n (attempt p) s := by
  unfold Confines at hp
  cases hrun : p s with
  | ok a t =>
    rw [hrun] at hp
    rw [Confines, Parse.attempt, hrun]
    exact hp
  | error d t =>
    rw [hrun] at hp
    rw [Confines, Parse.attempt, hrun]
    exact hp
  | fault f t =>
    rw [Confines, Parse.attempt, hrun]
    trivial

theorem ite {c : Prop} [Decidable c] {q : Parse α} (hp : c → Confines n p s)
    (hq : ¬ c → Confines n q s) : Confines n (if c then p else q) s := by
  split
  · exact hp ‹_›
  · exact hq ‹_›

theorem look {next : Token → Parse β} (hnext : Confines n (next s.current) s) :
    Confines n (current >>= next) s := hnext

theorem isAt {kind : TokenKind} {next : Bool → Parse β}
    (hyes : s.current.kind = kind → Confines n (next true) s)
    (hno : s.current.kind ≠ kind → Confines n (next false) s) :
    Confines n (isAt kind >>= next) s := by
  have hrun : Confines n (next (s.current.kind == kind)) s := by
    by_cases h : s.current.kind = kind
    · rw [beq_iff_eq.mpr h]
      exact hyes h
    · rw [beq_eq_false_iff_ne.mpr h]
      exact hno h
  exact hrun

theorem advance (h : Confined n s) (hk : s.current.kind ≠ .semicolon) :
    Confines n advance s := by
  by_cases hend : s.current.kind = .endMark
  · have hrun : Grammar.advance s = .ok s.current s := by
      unfold Grammar.advance
      rw [if_pos hend]
    rw [Confines, hrun]
    exact h
  · rw [Confines, run_advance hend]
    exact h.next hk

theorem accept {kind : TokenKind} (hk : kind ≠ .semicolon) (h : Confined n s) :
    Confines n (accept kind) s :=
  isAt (fun hc => (advance h (hc ▸ hk)).map) fun _ => h

theorem expect {kind : TokenKind} (hk : kind ≠ .semicolon) (expected : String)
    (h : Confined n s) : Confines n (expect kind expected) s :=
  look (ite (fun hc => advance h (hc ▸ hk)) fun _ => h)

theorem expectName (context : String) (h : Confined n s) : Confines n (expectName context) s := by
  refine (expect (by decide) context h).bind ?_
  intro token t ht
  cases token.keyword? with
  | none => exact pure ht
  | some _ => exact fail _ ht

theorem loop {round : α → Parse (Round α β)}
    (hround : ∀ a {t}, Confined n t → Confines n (round a) t) (a : α) (h : Confined n s) :
    Confines n (loop round a) s := by
  -- what carries the rounds is that each of them leaves a confined state
  have hrounds : ∀ rounds a t, Confined n t → Confines n (loopFor round rounds a) t := by
    intro rounds
    induction rounds with
    | zero =>
      intro a t _
      exact raise _
    | succ rounds ih =>
      intro a t ht
      refine (hround a ht).bind ?_
      rintro (a' | b) u hu
      · exact ih a' u hu
      · exact pure hu
  exact hrounds _ a s h

theorem nested (h : Confined n s)
    (hp : ∀ t, Confined n t → Confines n p t) : Confines n (nested p) s := by
  unfold Confines Grammar.nested
  by_cases hdepth : maxDepth ≤ s.depth
  · rw [if_pos hdepth]
    exact h
  · rw [if_neg hdepth]
    have hp' := hp _ (h.withDepth (s.depth + 1))
    unfold Confines at hp'
    cases hrun : p { s with depth := s.depth + 1 } with
    | ok a t =>
      rw [hrun] at hp'
      exact hp'.withDepth _
    | error d t =>
      rw [hrun] at hp'
      exact hp'.withDepth _
    | fault f t => trivial

theorem parameterRound (params : Array Ident) {s : State} (h : Confined n s) :
    Confines n (parameterRound params) s := by
  refine isAt (fun _ => h) fun _ => ?_
  refine (expectName _ h).bind ?_
  intro param t ht
  refine (accept (by decide) ht).bind ?_
  rintro (_ | _) u hu <;> exact hu

theorem functionName (h : Confined n s) : Confines n functionName s :=
  isAt (fun _ => (expectName _ h).map) fun _ => h

theorem signatureOf (kind : FunctionKind) (start : Nat) (h : Confined n s) :
    Confines n (signatureOf kind start) s := by
  refine (functionName h).bind ?_
  intro name t₁ h₁
  refine (expect (by decide) _ h₁).bind ?_
  intro _ t₂ h₂
  refine (loop parameterRound _ h₂).bind ?_
  intro params t₃ h₃
  refine (expect (by decide) _ h₃).bind ?_
  intro _ t₄ h₄
  refine (expect (by decide) _ h₄).bind ?_
  intro _ t₅ h₅
  exact h₅

theorem signature (h : Confined n s) : Confines n signature s := by
  cases hkind : s.current.keyword?.bind Keyword.functionKind? with
  | none =>
    obtain ⟨f, u, hrun⟩ := run_signature_fault hkind
    rw [Confines, hrun]
    trivial
  | some kind =>
    obtain ⟨keyword, hkey, -⟩ := Option.bind_eq_some_iff.mp hkind
    refine (advance h (kind_ne_semicolon_of_keyword hkey)).bind ?_
    intro token t ht
    cases token.keyword?.bind Keyword.functionKind? with
    | none => exact raise _
    | some kind => exact signatureOf kind token.index ht

theorem declarationHeader (h : Confined n s) : Confines n declarationHeader s := by
  refine (signature h).bind ?_
  intro header t ht
  cases header.name with
  | none => exact ht
  | some name =>
    refine look (ite (fun _ => ht) fun _ => ?_)
    cases header.kind <;> exact ht

theorem pathAlias (allowed : Bool) (h : Confined n s) : Confines n (pathAlias allowed) s := by
  refine look (ite (fun _ => h) fun _ => ite (fun _ => h) fun has => ite (fun _ => h) fun _ => ?_)
  refine (advance h (kind_ne_semicolon_of_isKeyword has)).bind ?_
  intro _ t ht
  exact (expectName _ ht).map

theorem pathAliasIn (place : PathPlace) (allowed : Bool) (h : Confined n s) :
    Confines n (pathAliasIn place allowed) s := by
  cases place with
  | importing => exact pathAlias allowed h
  | expression => exact h

theorem operator (fixity : Fixity) (h : Confined n s) (hk : s.current.kind ≠ .semicolon) :
    Confines n (operator fixity) s := by
  refine (advance h hk).bind ?_
  intro token t ht
  cases Operator.ofToken token fixity with
  | ok op => exact pure ht
  | error f => exact raise f

theorem rangeBetween (start stop : Nat) (h : Confined n s) :
    Confines n (rangeBetween start stop) s := by
  unfold Grammar.rangeBetween
  cases TokenRange.checked start stop with
  | ok r => exact pure h
  | error f => exact raise f

end Confines

/-- The rules that open a level stay in front of the semicolon. -/
structure Level.Confines (n : Nat) (g : Level) : Prop where
  unary : ∀ {s}, Confined n s → Grammar.Confines n g.unary s
  binary : ∀ left least {s}, Confined n s → Grammar.Confines n (g.binary left least) s
  block : ∀ {s}, Confined n s → Grammar.Confines n g.block s
  path : ∀ segment place {s}, Confined n s → Grammar.Confines n (g.path segment place) s

namespace Confines

variable {g : Level} (hg : g.Confines n)

include hg

theorem pathTarget (place : PathPlace) (h : Confined n s) : Confines n (g.pathTarget place) s := by
  refine look ?_
  dsimp only
  split
  · refine (expectName _ h).bind ?_
    intro item t₁ h₁
    refine (accept (by decide) h₁).bind ?_
    rintro (_ | _) t₂ h₂
    · exact h₂
    · exact (hg.path item place h₂).bind fun _ _ h => h
  · rename_i hstar
    exact ite (fun _ => (advance h (by rw [hstar]; decide)).bind fun _ _ h => h) fun _ => h
  · rename_i hopen
    exact absurd hopen h.kind_ne_openCurly
  · exact h

theorem pathFrom (segment : Ident) (place : PathPlace) (h : Confined n s) :
    Confines n (g.pathFrom segment place) s := by
  refine (pathTarget hg place h).bind ?_
  rintro ⟨target, aliasable⟩ t₁ h₁
  exact (pathAliasIn place aliasable h₁).bind fun _ _ h => h

theorem expression (h : Confined n s) : Confines n g.expression s := by
  refine (hg.unary h).bind ?_
  rintro (_ | left) t ht
  · exact ht
  · exact (hg.binary left 0 ht).map

theorem requiredExpression (context : String) (h : Confined n s) :
    Confines n (g.requiredExpression context) s := by
  refine (expression hg h).bind ?_
  rintro (_ | e) t ht <;> exact ht

theorem operandRound (level : Nat) (right : Expr) {s : State} (h : Confined n s) :
    Confines n (g.operandRound level right) s := by
  refine look ?_
  rcases s.current.bindingPower? with _ | ⟨next, associativity⟩
  · exact h
  · exact ite (fun _ => (hg.binary right _ h).map) fun _ =>
      ite (fun _ => (hg.binary right _ h).map) fun _ => h

theorem rightOperand (level : Nat) (h : Confined n s) : Confines n (g.rightOperand level) s := by
  refine (hg.unary h).bind ?_
  rintro (_ | first) t ht
  · exact ht
  · exact loop (operandRound hg level) first ht

theorem binaryRound (least : Nat) (left : Expr) {s : State} (h : Confined n s) :
    Confines n (g.binaryRound least left) s := by
  refine look ?_
  cases hpower : s.current.bindingPower? with
  | none => exact h
  | some power =>
    have hk : s.current.kind ≠ .semicolon := by
      intro hk
      simp [Lexeme.bindingPower?, Operation.binary?, hk] at hpower
    refine ite (fun _ => h) fun _ => ?_
    refine (operator _ h hk).bind ?_
    intro op t₁ h₁
    exact (rightOperand hg _ h₁).bind fun _ _ h => h

theorem binaryChain (left : Expr) (least : Nat) (h : Confined n s) :
    Confines n (g.binaryChain left least) s :=
  loop (binaryRound hg least) left h

theorem argumentRound (args : Array Expr) {s : State} (h : Confined n s) :
    Confines n (g.argumentRound args) s := by
  refine isAt (fun _ => h) fun _ => (expression hg h).bind ?_
  rintro (_ | arg) t ht
  · exact ht
  · refine (accept (by decide) ht).bind ?_
    rintro (_ | _) u hu <;> exact hu

theorem arguments (h : Confined n s) : Confines n g.arguments s := by
  refine (expect (by decide) _ h).bind ?_
  intro _ t₁ h₁
  refine (loop (argumentRound hg) _ h₁).bind ?_
  intro args t₂ h₂
  exact (expect (by decide) _ h₂).bind fun _ _ h => h

theorem elementRound (elements : Array Expr) {s : State} (h : Confined n s) :
    Confines n (g.elementRound elements) s := by
  refine (expression hg h).bind ?_
  rintro (_ | element) t ht
  · exact ht
  · refine (accept (by decide) ht).bind ?_
    rintro (_ | _) u hu <;> exact hu

theorem parenthesizedFrom (start : Nat) (first : Expr) (h : Confined n s) :
    Confines n (g.parenthesizedFrom start first) s := by
  refine (accept (by decide) h).bind ?_
  rintro (_ | _) t₁ h₁
  · exact (expect (by decide) _ h₁).bind fun _ _ h => h
  · refine (loop (elementRound hg) _ h₁).bind ?_
    intro elements t₂ h₂
    exact (expect (by decide) _ h₂).bind fun _ _ h => h

theorem parenthesized (h : Confined n s) (hk : s.current.kind ≠ .semicolon) :
    Confines n g.parenthesized s := by
  refine (advance h hk).bind ?_
  intro opening t₁ h₁
  refine (expression hg h₁).bind ?_
  rintro (_ | first) t₂ h₂
  · refine (accept (by decide) h₂).bind ?_
    rintro (_ | _) t₃ h₃ <;> exact h₃
  · exact parenthesizedFrom hg opening.index first h₂

theorem functionBody (kind : FunctionKind) (h : Confined n s) :
    Confines n (g.functionBody kind) s := by
  cases kind with
  | compute => exact requiredExpression hg _ h
  | action => exact isAt (fun hopen => absurd hopen h.kind_ne_openCurly) fun _ => h

theorem function (h : Confined n s) : Confines n g.function s := by
  refine (signature h).bind ?_
  intro header t₁ h₁
  refine (functionBody hg header.kind h₁).bind ?_
  intro body t₂ h₂
  exact (rangeBetween _ _ h₂).bind fun _ _ h => h

theorem keywordExpression (keyword : Keyword) (h : Confined n s) :
    Confines n (g.keywordExpression keyword) s := by
  unfold Level.keywordExpression
  cases keyword.functionKind? with
  | some _ => exact function hg h
  | none => exact h

theorem named (token : Token) (h : Confined n s) (hk : s.current.kind ≠ .semicolon) :
    Confines n (g.named token) s := by
  refine (advance h hk).bind ?_
  intro _ t₁ h₁
  refine (accept (by decide) h₁).bind ?_
  rintro (_ | _) t₂ h₂
  · exact isAt (fun _ => (arguments hg h₂).bind fun _ _ h => h) fun _ => h₂
  · exact (hg.path _ .expression h₂).map

theorem primary (h : Confined n s) : Confines n g.primary s := by
  refine look ?_
  cases hliteral : LiteralKind.ofLexeme? s.current.toLexeme with
  | some kind =>
    have hk : s.current.kind ≠ .semicolon := by
      intro hk
      simp [LiteralKind.ofLexeme?, hk] at hliteral
    exact (advance h hk).bind fun _ _ h => h
  | none =>
    dsimp only
    split
    · rename_i hword
      cases s.current.keyword? with
      | some keyword => exact (keywordExpression hg keyword h).map
      | none => exact (named hg s.current h (by rw [hword]; decide)).map
    · rename_i hopen
      exact (parenthesized hg h (by rw [hopen]; decide)).map
    · rename_i hopen
      exact absurd hopen h.kind_ne_openCurly
    · exact h

theorem callRound (callee : Expr) {s : State} (h : Confined n s) :
    Confines n (g.callRound callee) s :=
  isAt (fun _ => (arguments hg h).bind fun _ _ h => h) fun _ => h

theorem called (h : Confined n s) : Confines n g.called s := by
  refine (primary hg h).bind ?_
  rintro (_ | callee) t ht
  · exact ht
  · exact (loop (callRound hg) callee ht).map

theorem operand (h : Confined n s) : Confines n g.operand s := by
  refine look ?_
  cases hunary : Operation.unary? s.current.toLexeme with
  | none => exact called hg h
  | some operation =>
    have hk : s.current.kind ≠ .semicolon := by
      intro hk
      simp [Operation.unary?, hk] at hunary
    refine (operator .before h hk).bind ?_
    intro op t₁ h₁
    refine (hg.unary h₁).bind ?_
    rintro (_ | e) t₂ h₂
    · exact h₂
    · exact (rangeBetween _ _ h₂).bind fun _ _ h => h

omit hg in
/-- No block can be opened in front of the semicolon. -/
theorem blockBody (h : Confined n s) : Confines n g.blockBody s := by
  have hrun : ∃ d, g.blockBody s = .error d s := by
    refine ⟨⟨.unexpectedToken "`\x7b`" s.current.text, .single s.current.index⟩, ?_⟩
    unfold Level.blockBody Grammar.expect
    simp only [bind_apply, Grammar.current, if_neg h.kind_ne_openCurly]
    rfl
  obtain ⟨d, hrun⟩ := hrun
  rw [Confines, hrun]
  exact h

end Confines

namespace Level

theorem confines_closed : closed.Confines n :=
  ⟨fun h => h, fun _ _ _ h => h, fun h => h, fun _ _ _ h => h⟩

theorem Confines.above {g : Level} (hg : g.Confines n) : g.above.Confines n where
  unary h := Grammar.Confines.nested h fun _ => Grammar.Confines.operand hg
  binary left least _ h := Grammar.Confines.nested h fun _ =>
    Grammar.Confines.binaryChain hg left least
  block h := Grammar.Confines.nested h fun _ => Grammar.Confines.blockBody
  path segment place _ h := Grammar.Confines.nested h fun _ =>
    Grammar.Confines.pathFrom hg segment place

theorem confines_withRoom (room : Nat) : (withRoom room).Confines n := by
  induction room with
  | zero => exact confines_closed
  | succ room ih => exact ih.above

end Level

namespace Halts

variable {p : Parse α} {next : α → Parse β}

theorem of_confines (h : Confines n p s) : Halts n p s := by
  intro d t hrun
  rw [Confines, hrun] at h
  exact h

theorem bind (hp : Confines n p s) (hnext : ∀ a t, Confined n t → Halts n (next a) t) :
    Halts n (p >>= next) s := by
  intro d u hrun
  rw [bind_apply] at hrun
  rw [Confines] at hp
  cases h : p s with
  | ok a t =>
    rw [h] at hp hrun
    exact hnext a t hp d u hrun
  | error d' t =>
    rw [h] at hp hrun
    cases hrun
    exact hp
  | fault f t =>
    rw [h] at hrun
    cases hrun

theorem map {f : α → β} (hp : Halts n p s) : Halts n (f <$> p) s := by
  intro d t hrun
  rw [map_apply] at hrun
  cases h : p s with
  | ok a u =>
    rw [h] at hrun
    cases hrun
  | error d' u =>
    rw [h] at hrun
    cases hrun
    exact hp d t h
  | fault f u =>
    rw [h] at hrun
    cases hrun

/-- Behind its semicolon a statement does not stop any more. -/
theorem close (start : Nat) (f : TokenRange → Stmt) (h : Confined n s) :
    Halts n
      (expectSemicolon >>= fun _ => rangeFrom start >>= fun span => Pure.pure (f span)) s := by
  intro d t hrun
  by_cases hsemi : s.current.kind = .semicolon
  · -- here the run leaves the confined states, but with a value
    rw [run_bind (run_expectSemicolon hsemi)] at hrun
    cases hrun
  · have herror : expectSemicolon s =
        .error ⟨.missingSemicolon s.current.text, .single s.current.index⟩ s := by
      unfold expectSemicolon
      rw [run_bind run_current, if_neg hsemi]
      rfl
    rw [bind_apply, herror] at hrun
    cases hrun
    exact h

theorem look {next : Token → Parse β} (hnext : Halts n (next s.current) s) :
    Halts n (current >>= next) s := hnext

theorem ite {c : Prop} [Decidable c] {q : Parse α} (hp : c → Halts n p s)
    (hq : ¬ c → Halts n q s) : Halts n (if c then p else q) s := by
  split
  · exact hp ‹_›
  · exact hq ‹_›

theorem expressionStatement (e : Expr) (start : Nat) (h : Confined n s) :
    Halts n (expressionStatement e start) s :=
  look (ite (fun _ => of_confines h) fun _ => ite (fun _ => of_confines h) fun _ => close start _ h)

theorem resourceImport (start : Nat) (h : Confined n s) : Halts n (resourceImport start) s := by
  refine bind (Confines.expect (by decide) _ h) ?_
  intro resource t₁ h₁
  refine look (ite (fun _ => of_confines h₁) fun has => ?_)
  refine bind (Confines.advance h₁ (kind_ne_semicolon_of_isKeyword has)) ?_
  intro _ t₂ h₂
  refine bind (Confines.expectName _ h₂) ?_
  intro localName t₃ h₃
  exact close start _ h₃

variable {g : Level} (hg : g.Confines n)

include hg

theorem bindingFrom (start : Nat) (mutable : Bool) (h : Confined n s) :
    Halts n (g.bindingFrom start mutable) s := by
  refine bind (Confines.expectName _ h) ?_
  intro name t₁ h₁
  refine bind (Confines.expect (by decide) _ h₁) ?_
  intro _ t₂ h₂
  refine bind (Confines.requiredExpression hg _ h₂) ?_
  intro value t₃ h₃
  exact close start _ h₃

theorem bindingStatement (h : Confined n s) (hk : s.current.kind ≠ .semicolon) :
    Halts n g.bindingStatement s := by
  refine bind (Confines.advance h hk) ?_
  intro opening t ht
  show Halts n (if t.current.isKeyword .varKey = true then _ else _) t
  refine ite (fun hvar => ?_) fun _ => bindingFrom hg opening.index false ht
  refine bind (Confines.advance ht (kind_ne_semicolon_of_isKeyword (by simpa using hvar))) ?_
  intro _ u hu
  exact bindingFrom hg opening.index true hu

theorem functionStatement (h : Confined n s) : Halts n (g.functionStatement false) s := by
  refine bind (p := mark) h ?_
  intro before t₁ h₁
  refine bind (Confines.declarationHeader h₁).attempt ?_
  rintro (d | ⟨header, name⟩) t₂ h₂
  · exact of_confines h₂
  · -- the block cannot be opened, but the rules of the level need not say so
    refine bind (hg.block h₂) ?_
    intro body t₃ h₃
    refine ite (fun _ => of_confines h₃) fun _ => of_confines ?_
    exact (Confines.rangeBetween _ _ h₃).bind fun _ _ h => h

theorem returnStatement (h : Confined n s) (hk : s.current.kind ≠ .semicolon) :
    Halts n g.returnStatement s := by
  refine bind (Confines.advance h hk) ?_
  intro opening t₁ h₁
  refine bind (Confines.requiredExpression hg _ h₁) ?_
  intro value t₂ h₂
  exact close opening.index _ h₂

theorem pathImport (start : Nat) (h : Confined n s) : Halts n (g.pathImport start) s := by
  refine bind (Confines.expectName _ h) ?_
  intro segment t₁ h₁
  refine bind (Confines.expect (by decide) _ h₁) ?_
  intro _ t₂ h₂
  refine bind (hg.path segment .importing h₂) ?_
  intro p t₃ h₃
  exact close start _ h₃

theorem importStatement (h : Confined n s) (hk : s.current.kind ≠ .semicolon) :
    Halts n g.importStatement s := by
  refine bind (Confines.advance h hk) ?_
  intro opening t ht
  refine look ?_
  split
  · rename_i hext
    refine bind (Confines.advance ht (kind_ne_semicolon_of_keyword hext)) ?_
    intro _ u hu
    exact resourceImport opening.index hu
  · exact of_confines ht
  · exact pathImport hg opening.index ht

theorem statement (h : Confined n s) : Halts n (g.statement false) s := by
  refine look ?_
  cases hkey : s.current.keyword? with
  | some keyword =>
    have hk := kind_ne_semicolon_of_keyword hkey
    dsimp only
    cases keyword.statementForm? with
    | none => exact of_confines h
    | some form =>
      cases form with
      | binding => exact (bindingStatement hg h hk).map
      | function => exact functionStatement hg h
      | returning => exact (returnStatement hg h hk).map
      | importing => exact (importStatement hg h hk).map
  | none =>
    refine bind (p := position) h ?_
    intro start t₁ h₁
    refine bind (Confines.expression hg h₁) ?_
    rintro (_ | e) t₂ h₂
    · exact of_confines h₂
    · exact (expressionStatement e start h₂).map

end Halts

/-- A statement that stops with a diagnostic in front of the semicolon has recorded none before. -/
theorem confined_of_statement {d : Diagnostic} (h : Confined n s)
    (hrun : statement false s = .error d t) : Confined n t :=
  Halts.statement (Level.confines_withRoom _) h d t hrun

end FrontEnd.Grammar
