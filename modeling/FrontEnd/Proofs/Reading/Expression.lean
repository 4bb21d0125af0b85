import FrontEnd.Proofs.Reading.Path

/-! What the rules for function headers and expressions read. -/
namespace FrontEnd.Grammar

open Parse

variable {s : State}

theorem Ensures.missingExpression {α : Type} {post : α → State → Prop} (context : String) :
    Ensures (missingExpression context : Parse α) s post := by
  refine Ensures.current.bind ?_
  intro token t _ _
  exact Ensures.failHere _

theorem ensures_functionName (hs : s.Valid) :
    Ensures functionName s fun name t =>
      OptionalNameAt s.lexeme s.pos t.pos name ∧ t.errors = s.errors := by
  unfold functionName
  refine (Ensures.isAt _).bind ?_
  rintro b t _ ⟨hb, rfl⟩
  cases b with
  | true =>
    refine (Ensures.expectName hs _).map ?_
    rintro x u _ ⟨hx, rfl⟩
    exact ⟨.some hx, rfl⟩
  | false =>
    refine Ensures.pure ⟨.none ?_, rfl⟩
    intro hword
    exact absurd (hb.mpr hword) (by decide)

/-- The parameters read so far, with those that follow, are the parameters of the function. -/
def ParamsRead (s : State) (params : Array Ident) (t : State) : Prop :=
  t.errors = s.errors ∧ ∀ j rest, ParamsAt s.lexeme t.pos j rest →
    ParamsAt s.lexeme s.pos j (params.toList ++ rest)

theorem ensures_parameterRound {t : State} (ht : t.Valid) (hst : Grows s t)
    {params : Array Ident} (hread : ParamsRead s params t) :
    Ensures (parameterRound params) t (AfterRound
      (fun params' u => t.pos < u.pos ∧ ParamsRead s params' u)
      fun params' u => u.errors = s.errors ∧ (u.current.kind = .closeParen →
        ParamsAt s.lexeme s.pos u.pos params'.toList)) := by
  obtain ⟨hclean, hparams⟩ := hread
  unfold parameterRound
  refine (Ensures.isAt _).bind ?_
  rintro b t' _ ⟨hb, rfl⟩
  cases b with
  | true =>
    refine Ensures.pure ⟨hclean, fun hclose => ?_⟩
    have h := hparams t'.pos [] (.nil (by rw [← hst.lexeme]; exact hclose))
    simpa using h
  | false =>
    refine (Ensures.expectName ht _).bind ?_
    rintro x u hu ⟨hx, rfl⟩
    rw [hst.lexeme] at hx
    refine (Ensures.accept (by decide)).bind ?_
    rintro token? v hv hc
    cases token? with
    | some token =>
      obtain ⟨hcomma, -, rfl⟩ := hc
      refine Ensures.pure ⟨Nat.lt_succ_of_lt (Nat.lt_succ_self _), hclean, ?_⟩
      intro j rest hrest
      have hcomma' : (s.lexeme (t'.pos + 1)).kind = .comma := by
        rw [← hst.lexeme]
        exact hcomma
      have h := hparams j (x :: rest) (.cons hx hcomma' hrest)
      simpa using h
    | none =>
      obtain ⟨-, rfl⟩ := hc
      refine Ensures.pure ⟨hclean, fun hclose => ?_⟩
      have hclose' : (s.lexeme (t'.pos + 1)).kind = .closeParen := by
        rw [← hst.lexeme]
        exact hclose
      have h := hparams (t'.pos + 1) [x] (.last hx hclose')
      simpa using h

theorem ensures_signatureOf (hs : s.Valid) {i : Nat} {kind : FunctionKind}
    (hkind : (s.lexeme i).keyword?.bind Keyword.functionKind? = some kind)
    (hi : s.pos = i + 1) :
    Ensures (signatureOf kind i) s fun header t =>
      header.kind = kind ∧ header.start = i ∧ t.errors = s.errors ∧
        SignatureAt s.lexeme i t.pos kind header.name header.params := by
  unfold signatureOf
  refine (ensures_functionName hs).bind ?_
  rintro name t₁ ht₁ ⟨hname, hclean₁⟩
  refine (Ensures.expect (by decide) _).bind ?_
  rintro token t₂ ht₂ ⟨hopen, -, rfl⟩
  refine (Ensures.loop (ParamsRead t₁.next) (ht₂.valid (ht₁.valid hs))
    ⟨rfl, fun j rest hrest => by simpa using hrest⟩
    (fun params u hu hv hinv => ensures_parameterRound hv hu hinv)).bind ?_
  rintro params t₃ ht₃ ⟨hclean₃, hparams⟩
  refine (Ensures.expect (by decide) _).bind ?_
  rintro token t₄ _ ⟨hclose, -, rfl⟩
  refine (Ensures.expect (by decide) _).bind ?_
  rintro token t₅ _ ⟨harrow, -, rfl⟩
  have hlex₃ : t₃.lexeme = s.lexeme := ((ht₁.trans ht₂).trans ht₃).lexeme
  refine Ensures.pure ⟨rfl, rfl, hclean₃.trans hclean₁, ?_⟩
  rw [hi] at hname
  refine .mk (j := t₃.pos) hkind hname ?_ ?_ ?_ ?_
  · rw [← ht₁.lexeme]
    exact hopen
  · have h := hparams hclose
    rw [(ht₁.trans ht₂).lexeme] at h
    exact h
  · rw [← hlex₃]
    exact hclose
  · rw [← hlex₃]
    exact harrow

/-- A function header where its keyword is at the cursor. -/
theorem ensures_signature (hs : s.Valid) {kind : FunctionKind}
    (hkind : s.current.keyword?.bind Keyword.functionKind? = some kind) :
    Ensures signature s fun header t =>
      header.kind = kind ∧ header.start = s.pos ∧ t.errors = s.errors ∧ s.pos < t.pos ∧
        SignatureAt s.lexeme s.pos t.pos kind header.name header.params := by
  have hend : s.current.kind ≠ .endMark := by
    obtain ⟨keyword, hkey, -⟩ := Option.bind_eq_some_iff.mp hkind
    rw [Lexeme.kind_eq_word_of_keyword? hkey]
    decide
  unfold signature
  refine (Ensures.advance hend).bind ?_
  rintro token t ht ⟨rfl, rfl⟩
  simp only [hkind, hs.index_current]
  refine (ensures_signatureOf (i := s.pos) (ht.valid hs) hkind rfl).mono ?_
  rintro header u hu ⟨hk, hstart, hclean, hat⟩
  exact ⟨hk, hstart, hclean, hu.pos, hat⟩

namespace Level

variable {g : Level}

theorem Sound.expression (hg : g.Sound) (hs : s.Valid) :
    Ensures g.expression s (ExprRead s) := by
  unfold Level.expression
  refine (hg.unary s hs).bind ?_
  rintro u? t ht hu
  cases u? with
  | none => exact Ensures.pure hu
  | some u =>
    refine (hg.binary t u 0 (ht.valid hs)).map ?_
    intro e v _ he
    exact hu.expr he

theorem Sound.requiredExpression (hg : g.Sound) (hs : s.Valid) (context : String) :
    Ensures (g.requiredExpression context) s fun e t => ExprRead s (some e) t := by
  unfold Level.requiredExpression
  refine (hg.expression hs).bind ?_
  intro e? t _ he
  cases e? with
  | some e => exact Ensures.pure he
  | none => exact Ensures.missingExpression _

/-- The expressions read so far, with those that follow up to a place, make a list there. -/
def ExprsRead (list : Nat → List Expr → Prop) (s : State) (es : Array Expr) (t : State) : Prop :=
  t.errors = s.errors → ∀ j rest, ExprsAt s.lexeme t.pos j rest → list j (es.toList ++ rest)

/-- The list is complete if it ends at its closing parenthesis. -/
def ExprsDone (list : Nat → List Expr → Prop) (s : State) (es : Array Expr) (t : State) : Prop :=
  t.errors = s.errors → t.current.kind = .closeParen → list t.pos es.toList

variable {list : Nat → List Expr → Prop}

theorem ExprsRead.done {t : State} {es : Array Expr} (h : ExprsRead list s es t)
    (hst : Grows s t) : ExprsDone list s es t := by
  intro hclean hclose
  have hnil := h hclean t.pos [] (.nil (by rw [← hst.lexeme]; exact hclose))
  simpa using hnil

theorem ExprsRead.last {t u : State} {es : Array Expr} {e : Expr} (h : ExprsRead list s es t)
    (hst : Grows s t) (htu : Grows t u) (he : ExprRead t (some e) u) :
    ExprsDone list s (es.push e) u := by
  intro hclean hclose
  have hat := he.2 (hst.clean_right htu hclean)
  rw [hst.lexeme] at hat
  have hclose' : (s.lexeme u.pos).kind = .closeParen := by
    rw [← (hst.trans htu).lexeme]
    exact hclose
  have hlast := h (hst.clean_left htu hclean) u.pos [e] (.last hat hclose')
  simpa using hlast

theorem ExprsRead.push {t u : State} {es : Array Expr} {e : Expr} (h : ExprsRead list s es t)
    (hst : Grows s t) (htu : Grows t u) (he : ExprRead t (some e) u)
    (hcomma : u.current.kind = .comma) : ExprsRead list s (es.push e) u.next := by
  intro hclean j rest hrest
  have hat := he.2 (hst.clean_right htu hclean)
  rw [hst.lexeme] at hat
  have hcomma' : (s.lexeme u.pos).kind = .comma := by
    rw [← (hst.trans htu).lexeme]
    exact hcomma
  have hcons := h (hst.clean_left htu hclean) j (e :: rest) (.cons hat hcomma' hrest)
  simpa using hcons

/-- One more expression of a list, and the comma behind it. -/
theorem Sound.elementRound (hg : g.Sound) {t : State} (ht : t.Valid) (hst : Grows s t)
    {es : Array Expr} (hread : ExprsRead list s es t) :
    Ensures (g.elementRound es) t (AfterRound
      (fun es' u => t.pos < u.pos ∧ ExprsRead list s es' u) (ExprsDone list s)) := by
  unfold Level.elementRound
  refine (hg.expression ht).bind ?_
  intro e? u htu he
  cases e? with
  | none =>
    obtain ⟨rfl, -⟩ := he
    exact Ensures.pure (hread.done hst)
  | some e =>
    have hlt : t.pos < u.pos := by
      obtain ⟨h₁, h₂, h₃⟩ := he.1
      omega
    refine (Ensures.accept (by decide)).bind ?_
    intro token? v _ hc
    cases token? with
    | some token =>
      obtain ⟨hcomma, -, rfl⟩ := hc
      exact Ensures.pure ⟨Nat.lt_succ_of_lt hlt, hread.push hst htu he hcomma⟩
    | none =>
      obtain ⟨-, rfl⟩ := hc
      exact Ensures.pure (hread.last hst htu he)

theorem Sound.argumentRound (hg : g.Sound) {t : State} (ht : t.Valid) (hst : Grows s t)
    {es : Array Expr} (hread : ExprsRead list s es t) :
    Ensures (g.argumentRound es) t (AfterRound
      (fun es' u => t.pos < u.pos ∧ ExprsRead list s es' u) (ExprsDone list s)) := by
  unfold Level.argumentRound
  refine (Ensures.isAt _).bind ?_
  rintro b t' _ ⟨-, rfl⟩
  cases b with
  | true => exact Ensures.pure (hread.done hst)
  | false => exact hg.elementRound ht hst hread

theorem Sound.arguments (hg : g.Sound) (hs : s.Valid) :
    Ensures g.arguments s fun args t => s.pos < t.pos ∧
      (t.errors = s.errors → ArgumentsAt s.lexeme s.pos t.pos args) := by
  unfold Level.arguments
  refine (Ensures.expect (by decide) _).bind ?_
  rintro token t ht ⟨hopen, -, rfl⟩
  refine (Ensures.loop (ExprsRead (ExprsAt s.lexeme s.next.pos) s.next) (ht.valid hs)
    (fun _ j rest hrest => by exact hrest)
    (fun es u hu hv hinv => hg.argumentRound hv hu hinv)).bind ?_
  intro args u hu hargs
  refine (Ensures.expect (by decide) _).bind ?_
  rintro token v _ ⟨hclose, -, rfl⟩
  refine Ensures.pure ⟨Nat.lt_succ_of_lt hu.pos, ?_⟩
  intro hclean
  exact .mk hopen (hargs hclean hclose)

/-- An expression without operators was read. -/
def PrimaryRead (s : State) (e : Expr) (t : State) : Prop :=
  e.span.Within s.pos t.pos ∧ (t.errors = s.errors → PrimaryAt s.lexeme s.pos t.pos e)

theorem Sound.parenthesizedFrom (hg : g.Sound) {t : State} (ht : t.Valid)
    (hopen : s.current.kind = .openParen) (hst : Grows s.next t) {first : Expr}
    (hfirst : ExprRead s.next (some first) t) :
    Ensures (g.parenthesizedFrom s.pos first) t (PrimaryRead s) := by
  obtain ⟨⟨h₁, h₂, h₃⟩, hat⟩ := hfirst
  simp only [State.next_pos] at h₁
  have hlex : t.lexeme = s.lexeme := hst.lexeme
  unfold Level.parenthesizedFrom
  refine (Ensures.accept (by decide)).bind ?_
  intro token? u hu hc
  cases token? with
  | none =>
    obtain ⟨-, rfl⟩ := hc
    refine (Ensures.expect (by decide) _).bind ?_
    rintro token v _ ⟨hclose, -, rfl⟩
    refine Ensures.pure ⟨⟨by omega, h₂, Nat.le_succ_of_le h₃⟩, ?_⟩
    intro hclean
    exact .grouping hopen (hat hclean) (by rw [← hlex]; exact hclose)
  | some token =>
    obtain ⟨hcomma, -, rfl⟩ := hc
    refine (Ensures.loop (ExprsRead (fun j es => ∃ rest, es = first :: rest ∧
        ExprsAt s.lexeme t.next.pos j rest) t.next) (hu.valid ht)
      (fun _ j rest hrest => ⟨rest, rfl, hlex ▸ hrest⟩)
      (fun es u hu hv hinv => hg.elementRound hv hu hinv)).bind ?_
    intro es v hv hes
    refine (Ensures.expect (by decide) _).bind ?_
    rintro token w _ ⟨hclose, -, rfl⟩
    refine (Ensures.rangeFrom _).bind ?_
    rintro span w _ ⟨rfl, rfl⟩
    have hlt : s.pos < v.pos + 1 := by
      have := hv.pos
      simp only [State.next_pos] at this
      omega
    refine Ensures.pure ⟨TokenRange.within_clamped hlt, ?_⟩
    intro hclean
    obtain ⟨rest, hrest, hlist⟩ := hes ((hst.trans hu).clean_right hv hclean) hclose
    rw [hrest]
    exact .tuple hopen (hat ((hst.trans hu).clean_left hv hclean))
      (by rw [← hlex]; exact hcomma) hlist

theorem Sound.parenthesized (hg : g.Sound) (hs : s.Valid)
    (hopen : s.current.kind = .openParen) : Ensures g.parenthesized s (PrimaryRead s) := by
  unfold Level.parenthesized
  refine (Ensures.advance (by rw [hopen]; decide)).bind ?_
  rintro opening t ht ⟨rfl, rfl⟩
  rw [hs.index_current]
  refine (hg.expression (ht.valid hs)).bind ?_
  intro first? u hu hfirst
  cases first? with
  | some first => exact hg.parenthesizedFrom ((ht.trans hu).valid hs) hopen hu hfirst
  | none =>
    obtain ⟨rfl, -⟩ := hfirst
    refine (Ensures.accept (by decide)).bind ?_
    intro token? v _ hc
    cases token? with
    | none => exact Ensures.missingExpression _
    | some token =>
      obtain ⟨hclose, -, rfl⟩ := hc
      refine (Ensures.rangeFrom _).bind ?_
      rintro span v _ ⟨rfl, rfl⟩
      exact Ensures.pure ⟨TokenRange.within_clamped (Nat.lt_succ_of_lt (Nat.lt_succ_self _)),
        fun _ => .unit hopen hclose⟩

/-- The body of a function, and what it makes of a header before it. -/
theorem Sound.functionBody (hg : g.Sound) (hs : s.Valid) (kind : FunctionKind) :
    Ensures (g.functionBody kind) s fun body t => body.span.Within s.pos t.pos ∧
      (t.errors = s.errors → ∀ i name params, SignatureAt s.lexeme i s.pos kind name params →
        PrimaryAt s.lexeme i t.pos (.function kind name params body ⟨i, body.span.stop⟩)) := by
  cases kind with
  | compute =>
    refine (hg.requiredExpression hs _).mono ?_
    rintro body t _ ⟨hspan, hat⟩
    refine ⟨hspan, ?_⟩
    intro hclean i name params hheader
    exact .compute hheader (hat hclean)
  | action =>
    unfold Level.functionBody
    refine (Ensures.isAt _).bind ?_
    rintro b t _ ⟨-, rfl⟩
    cases b with
    | false => exact Ensures.failHere _
    | true =>
      refine (hg.block t hs).bind ?_
      rintro block u _ ⟨hlt, hspan, hat⟩
      cases htail : block.tail with
      | some value =>
        simp only [Block.hasTail, htail, Option.isSome_some, if_true]
        exact Ensures.fail _
      | none =>
        simp only [Block.hasTail, htail, Option.isSome_none, Bool.false_eq_true, if_false]
        refine Ensures.pure ⟨?_, ?_⟩
        · show block.span.Within t.pos u.pos
          rw [hspan]
          exact TokenRange.within_clamped hlt
        · intro hclean i name params hheader
          exact .action hheader (hat hclean) htail

theorem Sound.function (hg : g.Sound) (hs : s.Valid) {kind : FunctionKind}
    (hkind : s.current.keyword?.bind Keyword.functionKind? = some kind) :
    Ensures g.function s (PrimaryRead s) := by
  unfold Level.function
  refine (ensures_signature hs hkind).bind ?_
  rintro header t ht ⟨rfl, hstart, hclean, hlt, hheader⟩
  refine (hg.functionBody (ht.valid hs) header.kind).bind ?_
  rintro body u hu ⟨⟨h₁, h₂, h₃⟩, hbody⟩
  rw [hstart]
  refine (Ensures.rangeBetween (by omega)).bind ?_
  rintro span v _ ⟨rfl, rfl⟩
  refine Ensures.pure ⟨⟨Nat.le_refl _, by show s.pos < body.span.stop; omega, h₃⟩, ?_⟩
  intro hclean'
  rw [ht.lexeme] at hbody
  exact hbody (hclean'.trans hclean.symm) s.pos _ _ hheader

theorem Sound.keywordExpression (hg : g.Sound) (hs : s.Valid) {keyword : Keyword}
    (hkey : s.current.keyword? = some keyword) :
    Ensures (g.keywordExpression keyword) s (PrimaryRead s) := by
  unfold Level.keywordExpression
  cases hkind : keyword.functionKind? with
  | some kind =>
    have hfunction : s.current.keyword?.bind Keyword.functionKind? = some kind := by
      rw [hkey]
      exact hkind
    exact hg.function hs hfunction
  | none => exact Ensures.failHere _

theorem Sound.named (hg : g.Sound) (hs : s.Valid) (hword : s.current.kind = .word)
    (hkey : s.current.keyword? = none) :
    Ensures (g.named s.current) s (PrimaryRead s) := by
  have hend : s.current.kind ≠ .endMark := by
    rw [hword]
    decide
  have hname : NameAt s.lexeme s.pos (.ofToken s.current) := by
    refine ⟨hword, hkey, ?_⟩
    simp only [Ident.ofToken, hkey, hs.index_current]
    rfl
  have hstart : (Ident.ofToken s.current).span.start = s.pos := hs.index_current
  unfold Level.named
  refine (Ensures.advance hend).bind ?_
  rintro token t ht ⟨-, rfl⟩
  refine (Ensures.accept (by decide)).bind ?_
  intro token? u hu hc
  cases token? with
  | some token =>
    obtain ⟨hcolon, -, rfl⟩ := hc
    refine (hg.path _ _ .expression (hu.valid (ht.valid hs))).map ?_
    rintro p v hv ⟨hlt, hspan, hat⟩
    refine ⟨?_, fun hclean => .path hname hcolon (hat hclean)⟩
    show p.span.Within s.pos v.pos
    rw [hspan, hstart]
    exact TokenRange.within_clamped (Nat.lt_of_succ_lt (Nat.lt_of_succ_lt hlt))
  | none =>
    obtain ⟨hcolon, rfl⟩ := hc
    refine (Ensures.isAt _).bind ?_
    rintro b v _ ⟨hb, rfl⟩
    cases b with
    | true =>
      refine (hg.arguments (ht.valid hs)).bind ?_
      rintro args v hv ⟨hlt, hargs⟩
      refine (Ensures.rangeFrom _).bind ?_
      rintro span w _ ⟨rfl, rfl⟩
      rw [hs.index_current]
      exact Ensures.pure ⟨TokenRange.within_clamped (Nat.lt_of_succ_lt hlt),
        fun hclean => .call hname (hargs hclean)⟩
    | false =>
      refine Ensures.pure ⟨?_, fun _ => .ident hname hcolon ?_⟩
      · show (TokenRange.single s.current.index).Within s.pos (s.pos + 1)
        rw [hs.index_current]
        exact TokenRange.within_single s.pos
      · intro hopen
        exact absurd (hb.mpr hopen) (by decide)

/-- An expression without operators was read, or no such expression starts here. -/
theorem Sound.primary (hg : g.Sound) (hs : s.Valid)
    (hunary : Operation.unary? (s.lexeme s.pos) = none) :
    Ensures g.primary s fun e? t =>
      match e? with
      | none => t = s ∧ ¬ StartsExpr (s.lexeme s.pos)
      | some e => PrimaryRead s e t := by
  unfold Level.primary
  refine Ensures.current.bind ?_
  rintro token t _ ⟨rfl, rfl⟩
  cases hlit : LiteralKind.ofLexeme? t.current.toLexeme with
  | some kind =>
    have hend : t.current.kind ≠ .endMark := by
      intro hk
      simp [LiteralKind.ofLexeme?, hk] at hlit
    refine (Ensures.advance hend).bind ?_
    rintro token u _ ⟨-, rfl⟩
    rw [hs.index_current]
    exact Ensures.pure ⟨TokenRange.within_single t.pos, fun _ => .literal hlit⟩
  | none =>
    simp only
    split
    · rename_i hword
      cases hkey : t.current.keyword? with
      | some keyword =>
        refine (hg.keywordExpression hs hkey).map ?_
        intro e u _ he
        exact he
      | none =>
        refine (hg.named hs hword hkey).map ?_
        intro e u _ he
        exact he
    · rename_i hopen
      refine (hg.parenthesized hs hopen).map ?_
      intro e u _ he
      exact he
    · refine (hg.block t hs).bind ?_
      rintro b u _ ⟨hlt, hspan, hat⟩
      refine Ensures.pure ⟨?_, fun hclean => .block (hat hclean)⟩
      show b.span.Within t.pos u.pos
      rw [hspan]
      exact TokenRange.within_clamped hlt
    · rename_i hword hparen hcurly
      refine Ensures.pure ⟨rfl, ?_⟩
      rintro (h | h | h | h | h)
      · rw [show LiteralKind.ofLexeme? (t.lexeme t.pos) = none from hlit] at h
        cases h
      · exact hword h
      · exact hparen h
      · exact hcurly h
      · rw [hunary] at h
        cases h

/-- A value and the calls read behind it so far. -/
def CallsRead (s : State) (e : Expr) (t : State) : Prop :=
  e.span.Within s.pos t.pos ∧ (t.errors = s.errors → ∀ j e',
    CallsAt s.lexeme t.pos j e e' → OperandAt s.lexeme s.pos j e')

theorem Sound.callRound (hg : g.Sound) {t : State} (ht : t.Valid) (hst : Grows s t)
    {callee : Expr} (hread : CallsRead s callee t) :
    Ensures (g.callRound callee) t (AfterRound
      (fun e u => t.pos < u.pos ∧ CallsRead s e u)
      fun e u => e.span.Within s.pos u.pos ∧
        (u.errors = s.errors → OperandAt s.lexeme s.pos u.pos e)) := by
  obtain ⟨⟨h₁, h₂, h₃⟩, hcalls⟩ := hread
  unfold Level.callRound
  refine (Ensures.isAt _).bind ?_
  rintro b t' _ ⟨hb, rfl⟩
  cases b with
  | true =>
    refine (hg.arguments ht).bind ?_
    rintro args u hu ⟨hlt, hargs⟩
    refine (Ensures.rangeFrom _).bind ?_
    rintro span v _ ⟨rfl, rfl⟩
    refine Ensures.pure ⟨hlt, ?_, ?_⟩
    · show (TokenRange.clamped callee.span.start v.pos).Within s.pos v.pos
      rw [TokenRange.clamped_of_le (by omega)]
      exact ⟨h₁, by show callee.span.start < v.pos; omega, Nat.le_refl _⟩
    · intro hclean j e' hrest
      have hat := hargs (hst.clean_right hu hclean)
      rw [hst.lexeme] at hat
      exact hcalls (hst.clean_left hu hclean) j e' (.call hat hrest)
  | false =>
    refine Ensures.pure ⟨⟨h₁, h₂, h₃⟩, ?_⟩
    intro hclean
    refine hcalls hclean t'.pos callee (.done ?_)
    rw [← hst.lexeme]
    intro hopen
    exact absurd (hb.mpr hopen) (by decide)

theorem Sound.called (hg : g.Sound) (hs : s.Valid)
    (hunary : Operation.unary? (s.lexeme s.pos) = none) :
    Ensures g.called s fun u? t =>
      match u? with
      | none => t = s ∧ ¬ StartsExpr (s.lexeme s.pos)
      | some u => OperandRead s u t := by
  unfold Level.called
  refine (hg.primary hs hunary).bind ?_
  intro callee? t ht hcallee
  cases callee? with
  | none => exact Ensures.pure hcallee
  | some callee =>
    obtain ⟨hspan, hat⟩ := hcallee
    have hloop : Ensures (loop g.callRound callee) t fun e u => Grows s u ∧
        e.span.Within s.pos u.pos ∧
          (u.errors = s.errors → OperandAt s.lexeme s.pos u.pos e) := by
      refine (Ensures.loop (CallsRead s) (ht.valid hs)
        ⟨hspan, fun hclean j e hcalls => .called (hat hclean) hcalls⟩
        (fun e u hu hv hinv => hg.callRound hv (ht.trans hu) hinv)).mono ?_
      intro e u hu he
      exact ⟨ht.trans hu, he⟩
    refine hloop.map ?_
    intro e u _ he
    exact he

theorem Ensures.operator_before {operation : Operation} (hs : s.Valid)
    (h : Operation.unary? (s.lexeme s.pos) = some operation) :
    Ensures (operator .before) s fun op t =>
      op = ⟨operation, .single s.pos⟩ ∧ t = s.next := by
  have hend : s.current.kind ≠ .endMark := by
    intro hk
    have hk' : (s.lexeme s.pos).kind = .endMark := hk
    simp [Operation.unary?, hk'] at h
  unfold Grammar.operator
  refine (Ensures.advance hend).bind ?_
  rintro token t _ ⟨rfl, rfl⟩
  have hop : Operator.ofToken s.current .before = .ok ⟨operation, .single s.pos⟩ := by
    unfold Operator.ofToken
    rw [State.toLexeme_current, Operation.ofLexeme?, h, hs.index_current]
  rw [hop]
  exact Ensures.pure ⟨rfl, rfl⟩

theorem Sound.operand (hg : g.Sound) (hs : s.Valid) :
    Ensures g.operand s fun u? t =>
      match u? with
      | none => t = s ∧ ¬ StartsExpr (s.lexeme s.pos)
      | some u => OperandRead s u t := by
  unfold Level.operand
  refine Ensures.current.bind ?_
  rintro token t _ ⟨rfl, rfl⟩
  cases hunary : Operation.unary? t.current.toLexeme with
  | none => exact hg.called hs hunary
  | some operation =>
    refine (Ensures.operator_before hs hunary).bind ?_
    rintro op u hu ⟨rfl, rfl⟩
    refine (hg.unary _ (hu.valid hs)).bind ?_
    intro e? v hv he
    cases e? with
    | none => exact Ensures.missingExpression _
    | some e =>
      obtain ⟨-, ⟨h₁, h₂, h₃⟩, hat⟩ := he
      simp only [State.next_pos] at h₁
      rw [hs.index_current]
      refine (Ensures.rangeBetween (by omega)).bind ?_
      rintro span w _ ⟨rfl, rfl⟩
      refine Ensures.pure ⟨hu.trans hv, ⟨Nat.le_refl _, ?_, h₃⟩, ?_⟩
      · show t.pos < e.span.stop
        omega
      · intro hclean
        exact .before hunary (hat hclean)

end Level

end FrontEnd.Grammar
