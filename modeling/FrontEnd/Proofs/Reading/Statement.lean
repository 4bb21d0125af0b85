import FrontEnd.Grammar.Block
import FrontEnd.Proofs.Acceptance.Signature
import FrontEnd.Proofs.Reading.Expression

/-! What the rules for statements and blocks read. -/
namespace FrontEnd.Grammar

open Parse

variable {s : State}

/-- Nothing was recorded, and something was. -/
theorem Grows.record_ne {t : State} (h : Grows s t) (d : Diagnostic) :
    t.errors ++ [d] ≠ s.errors := by
  intro heq
  have hlen := h.errors.length_le
  rw [← heq, List.length_append, List.length_singleton] at hlen
  omega

theorem PrimaryAt.startsExpr {T : Nat → Lexeme} {i j : Nat} {e : Expr} (h : PrimaryAt T i j e) :
    StartsExpr (T i) := by
  cases h with
  | literal h => exact .inl (by rw [h]; rfl)
  | path h => exact .inr (.inl h.1)
  | call h => exact .inr (.inl h.1)
  | ident h => exact .inr (.inl h.1)
  | unit h => exact .inr (.inr (.inl h))
  | grouping h => exact .inr (.inr (.inl h))
  | tuple h => exact .inr (.inr (.inl h))
  | block h =>
    obtain ⟨h⟩ := h
    exact .inr (.inr (.inr (.inl h)))
  | compute h =>
    obtain ⟨h⟩ := h
    obtain ⟨keyword, hkey, -⟩ := Option.bind_eq_some_iff.mp h
    exact .inr (.inl (Lexeme.kind_eq_word_of_keyword? hkey))
  | action h =>
    obtain ⟨h⟩ := h
    obtain ⟨keyword, hkey, -⟩ := Option.bind_eq_some_iff.mp h
    exact .inr (.inl (Lexeme.kind_eq_word_of_keyword? hkey))

theorem ExprAt.startsExpr {T : Nat → Lexeme} {i j : Nat} {e : Expr} (h : ExprAt T i j e) :
    StartsExpr (T i) := by
  obtain ⟨hu, -, -, -⟩ := h
  cases hu with
  | before hop _ => exact .inr (.inr (.inr (.inr (by rw [hop]; rfl))))
  | called hcallee _ => exact hcallee.startsExpr

/-- Neither the end of a block nor that of the stream starts an expression. -/
theorem not_startsExpr {lexeme : Lexeme} (h : lexeme.kind = .closeCurly ∨ lexeme.kind = .endMark) :
    ¬ StartsExpr lexeme := by
  unfold StartsExpr LiteralKind.ofLexeme? Operation.unary?
  rcases h with h | h <;> simp [h]

/-- A statement was read. -/
def StmtRead (s : State) (stmt : Stmt) (t : State) : Prop :=
  s.pos < t.pos ∧ stmt.span = .clamped s.pos t.pos ∧
    (t.errors = s.errors → StmtAt s.lexeme s.pos t.pos stmt)

/-- No statement starts here: nothing that could, or a function that declares nothing. -/
def NoStmt (s : State) : Prop :=
  ¬ StartsExpr (s.lexeme s.pos) ∨
    ∃ kind, (s.lexeme s.pos).keyword?.bind Keyword.functionKind? = some kind ∧
      ¬ DeclaresAt s.lexeme s.pos

theorem ensures_expressionStatement {t : State} (hst : Grows s t)
    (hkey : s.current.keyword? = none) {e : Expr} (he : ExprRead s (some e) t) :
    Ensures (expressionStatement e s.pos) t (StmtRead s) := by
  obtain ⟨⟨h₁, h₂, h₃⟩, hat⟩ := he
  unfold expressionStatement
  refine Ensures.current.bind ?_
  rintro token t' _ ⟨rfl, rfl⟩
  split
  · exact Ensures.failHere _
  · rename_i hsemi
    split
    · exact Ensures.fail _
    · rename_i halone
      refine Ensures.expectSemicolon.bind ?_
      rintro token u hu ⟨hsemi', -, rfl⟩
      refine (Ensures.rangeFrom _).bind ?_
      rintro span v _ ⟨rfl, rfl⟩
      refine Ensures.pure ⟨?_, rfl, ?_⟩
      · show s.pos < t'.pos + 1
        omega
      · intro hclean
        refine .expr hkey (hat hclean) ?_ (by simpa using halone)
        rw [← hst.lexeme]
        exact hsemi'

theorem ensures_declarationHeader (hs : s.Valid) {kind : FunctionKind}
    (hkind : s.current.keyword?.bind Keyword.functionKind? = some kind) :
    Ensures declarationHeader s fun header t =>
      header.1.kind = kind ∧ header.1.start = s.pos ∧ t.errors = s.errors ∧ s.pos < t.pos ∧
        SignatureAt s.lexeme s.pos t.pos kind (some header.2) header.1.params ∧
        t.current.kind = .openCurly := by
  unfold declarationHeader
  refine (ensures_signature hs hkind).bind ?_
  rintro header t ht ⟨hk, hstart, hclean, hlt, hat⟩
  cases hname : header.name with
  | none => exact Ensures.fail _
  | some name =>
    refine Ensures.current.bind ?_
    rintro token t' _ ⟨rfl, rfl⟩
    rw [hname] at hat
    by_cases hopen : t'.current.kind = .openCurly
    · simp only [hopen, if_true]
      exact Ensures.pure ⟨hk, hstart, hclean, hlt, hat, hopen⟩
    · simp only [hopen, if_false]
      cases header.kind with
      | action => exact Ensures.failHere _
      | compute => exact Ensures.failHere _

theorem ensures_resourceImport (hs : s.Valid) {i : Nat} (hi : s.pos = i + 2)
    (himport : (s.lexeme i).keyword? = some .importKey)
    (hext : (s.lexeme (i + 1)).keyword? = some .externKey) :
    Ensures (resourceImport i) s fun stmt t =>
      i < t.pos ∧ stmt.span = .clamped i t.pos ∧ StmtAt s.lexeme i t.pos stmt := by
  unfold resourceImport
  refine (Ensures.expect (by decide) _).bind ?_
  rintro resource t₁ ht₁ ⟨hstring, rfl, rfl⟩
  refine Ensures.current.bind ?_
  rintro token t₁ _ ⟨rfl, rfl⟩
  split
  · exact Ensures.failHere _
  · rename_i has
    have hkey : s.next.current.keyword? = some .asKey := by
      simpa [Lexeme.isKeyword] using has
    have hend : s.next.current.kind ≠ .endMark := by
      rw [Lexeme.kind_eq_word_of_keyword? hkey]
      decide
    refine (Ensures.advance hend).bind ?_
    rintro token t₂ ht₂ ⟨-, rfl⟩
    refine (Ensures.expectName (ht₂.valid (ht₁.valid hs)) _).bind ?_
    rintro x t₃ _ ⟨hx, rfl⟩
    refine Ensures.expectSemicolon.bind ?_
    rintro token t₄ _ ⟨hsemi, -, rfl⟩
    refine (Ensures.rangeFrom _).bind ?_
    rintro span t₅ _ ⟨rfl, rfl⟩
    rw [hs.index_current]
    have hstring' : (s.lexeme s.pos).kind = .string := hstring
    have has' : (s.lexeme (s.pos + 1)).keyword? = some .asKey := hkey
    have hx' : NameAt s.lexeme (s.pos + 2) x := hx
    have hsemi' : (s.lexeme (s.pos + 3)).kind = .semicolon := hsemi
    have hvalue : s.current.value = (s.lexeme s.pos).value := rfl
    refine Ensures.pure ⟨?_, rfl, ?_⟩
    · show i < s.pos + 1 + 1 + 1 + 1
      omega
    · simp only [State.next_pos, hvalue]
      rw [hi] at hstring' has' hx' hsemi' ⊢
      exact .importResource himport hext hstring' has' hx' hsemi'

/-- A rule that runs on as another one from a later state. -/
theorem Ensures.of_run_eq {α : Type} {p q : Parse α} {t : State} {post : α → State → Prop}
    (heq : p s = q t) (hst : Grows s t) (h : Ensures q t post) : Ensures p s post := by
  unfold Ensures at h ⊢
  rw [heq]
  cases hq : q t with
  | ok a u =>
    rw [hq] at h
    exact ⟨hst.trans h.1, h.2⟩
  | error d u =>
    rw [hq] at h
    exact hst.trans h
  | fault f u =>
    rw [hq] at h
    exact h

theorem run_mark : mark s = .ok ⟨s.pos, s.errors.length⟩ s := rfl

/-- Going back to a mark restores the state that it was made in. -/
theorem run_rewind {t : State} (h : Grows s t) :
    rewind ⟨s.pos, s.errors.length⟩ t = .ok () s := by
  obtain ⟨rest, hrest⟩ := h.errors
  unfold rewind
  simp only [← hrest, List.take_left]
  have hstream := h.stream
  have hdepth := h.depth
  cases s
  cases t
  simp_all

namespace Level

variable {g : Level}

theorem Sound.bindingFrom (hg : g.Sound) (hs : s.Valid) {i : Nat} {mutable : Bool}
    (hlet : (s.lexeme i).keyword? = some .letKey)
    (hmutable : mutable = (s.lexeme (i + 1)).isKeyword .varKey)
    (hi : s.pos = i + 1 + mutable.toNat) :
    Ensures (g.bindingFrom i mutable) s fun stmt t =>
      i < t.pos ∧ stmt.span = .clamped i t.pos ∧
        (t.errors = s.errors → StmtAt s.lexeme i t.pos stmt) := by
  unfold Level.bindingFrom
  refine (Ensures.expectName hs _).bind ?_
  rintro x t₁ ht₁ ⟨hx, rfl⟩
  refine (Ensures.expect (by decide) _).bind ?_
  rintro token t₂ ht₂ ⟨hassign, -, rfl⟩
  refine (hg.requiredExpression (ht₂.valid (ht₁.valid hs)) _).bind ?_
  rintro value t₃ ht₃ ⟨⟨h₁, h₂, h₃⟩, hat⟩
  refine Ensures.expectSemicolon.bind ?_
  rintro token t₄ _ ⟨hsemi, -, rfl⟩
  refine (Ensures.rangeFrom _).bind ?_
  rintro span t₅ _ ⟨rfl, rfl⟩
  simp only [State.next_pos] at h₁
  refine Ensures.pure ⟨?_, rfl, ?_⟩
  · show i < t₃.pos + 1
    omega
  · intro hclean
    refine .binding hlet hmutable hi hx hassign (hat hclean) ?_
    rw [← show t₃.lexeme = s.lexeme from ht₃.lexeme]
    exact hsemi

theorem Sound.bindingStatement (hg : g.Sound) (hs : s.Valid)
    (hlet : s.current.keyword? = some .letKey) : Ensures g.bindingStatement s (StmtRead s) := by
  have hend : s.current.kind ≠ .endMark := by
    rw [Lexeme.kind_eq_word_of_keyword? hlet]
    decide
  unfold Level.bindingStatement
  refine (Ensures.advance hend).bind ?_
  rintro opening t ht ⟨rfl, rfl⟩
  rw [hs.index_current]
  refine (Ensures.isAtKeyword _).bind ?_
  rintro b t' _ ⟨hb, rfl⟩
  cases b with
  | true =>
    have hvar : s.next.current.kind ≠ .endMark := by
      have hkey : s.next.current.keyword? = some .varKey := by
        simpa [Lexeme.isKeyword] using hb.symm
      rw [Lexeme.kind_eq_word_of_keyword? hkey]
      decide
    refine (Ensures.advance hvar).bind ?_
    rintro token u hu ⟨-, rfl⟩
    exact hg.bindingFrom (hu.valid (ht.valid hs)) hlet hb rfl
  | false => exact hg.bindingFrom (ht.valid hs) hlet hb rfl

/-- A function declaration behind its header. -/
def declared (g : Level) (header : Signature) (name : Ident) : Parse (Option Stmt) := do
  let body ← g.block
  if header.kind = .action ∧ body.hasTail = true then fail ⟨.actionTail, body.span⟩
  else
    let span ← rangeBetween header.start body.span.stop
    pure (some (.function header.kind name header.params body span))

theorem run_functionStatement_ok {t : State} {inBlock : Bool} {header : Signature} {name : Ident}
    (h : declarationHeader s = .ok (header, name) t) :
    g.functionStatement inBlock s = g.declared header name t := by
  have hattempt : attempt declarationHeader s = .ok (.ok (header, name)) t := by
    simp only [attempt, h]
  unfold functionStatement
  rw [run_bind run_mark, run_bind hattempt]
  rfl

theorem run_functionStatement_error {t : State} {inBlock : Bool} {d : Diagnostic}
    (h : declarationHeader s = .error d t) (hst : Grows s t) :
    g.functionStatement inBlock s = if inBlock then .ok none s else .error d t := by
  have hattempt : attempt declarationHeader s = .ok (.error d) t := by
    simp only [attempt, h]
  unfold functionStatement
  rw [run_bind run_mark, run_bind hattempt]
  cases inBlock with
  | false => rfl
  | true =>
    simp only [if_true]
    rw [run_bind (run_rewind hst)]
    rfl

theorem Sound.declared (hg : g.Sound) {t : State} (ht : t.Valid) (hst : Grows s t)
    (hclean : t.errors = s.errors) (hlt : s.pos < t.pos) {header : Signature} {name : Ident}
    (hstart : header.start = s.pos)
    (hat : SignatureAt s.lexeme s.pos t.pos header.kind (some name) header.params) :
    Ensures (g.declared header name) t fun stmt? u => ∃ stmt, stmt? = some stmt ∧
      StmtRead s stmt u := by
  unfold Level.declared
  refine (hg.block t ht).bind ?_
  rintro body u hu ⟨hbody, hspan, hblock⟩
  split
  · exact Ensures.fail _
  · rename_i htail
    have hstop : body.span.stop = u.pos := by
      rw [hspan, TokenRange.clamped_of_le (Nat.le_of_lt hbody)]
    rw [hstart]
    refine (Ensures.rangeBetween (by omega)).bind ?_
    rintro span v _ ⟨rfl, rfl⟩
    refine Ensures.pure ⟨_, rfl, Nat.lt_trans hlt hbody, ?_, ?_⟩
    · rw [TokenRange.clamped_of_le (by omega), ← hstop]
      rfl
    · intro hclean'
      have hblock' := hblock (hclean'.trans hclean.symm)
      rw [hst.lexeme] at hblock'
      refine .function hat hblock' ?_
      intro haction
      simpa [haction, Block.hasTail] using htail

theorem Sound.functionStatement (hg : g.Sound) (hs : s.Valid) {kind : FunctionKind}
    (hkind : s.current.keyword?.bind Keyword.functionKind? = some kind) (inBlock : Bool) :
    Ensures (g.functionStatement inBlock) s fun stmt? t =>
      match stmt? with
      | none => t = s ∧ ¬ DeclaresAt s.lexeme s.pos
      | some stmt => StmtRead s stmt t := by
  have hheader := ensures_declarationHeader hs hkind
  cases hrun : declarationHeader s with
  | fault f t => exact absurd hrun (hheader.no_fault f t)
  | error d t =>
    have hst : Grows s t := hheader.error hrun
    unfold Ensures
    rw [run_functionStatement_error hrun hst]
    cases inBlock with
    | false => exact hst
    | true =>
      refine ⟨Grows.refl s, rfl, ?_⟩
      rintro ⟨j, kind', name, params, hat, hopen⟩
      rw [run_declarationHeader hs hat hopen] at hrun
      cases hrun
  | ok header t =>
    obtain ⟨header, name⟩ := header
    obtain ⟨hst, rfl, hstart, hclean, hlt, hat, -⟩ := hheader.ok hrun
    refine Ensures.of_run_eq (run_functionStatement_ok hrun) hst ?_
    refine (hg.declared (hst.valid hs) hst hclean hlt hstart hat).mono ?_
    rintro stmt? u _ ⟨stmt, rfl, hstmt⟩
    exact hstmt

theorem Sound.returnStatement (hg : g.Sound) (hs : s.Valid)
    (hreturn : s.current.keyword? = some .returnKey) :
    Ensures g.returnStatement s (StmtRead s) := by
  have hend : s.current.kind ≠ .endMark := by
    rw [Lexeme.kind_eq_word_of_keyword? hreturn]
    decide
  unfold Level.returnStatement
  refine (Ensures.advance hend).bind ?_
  rintro opening t ht ⟨rfl, rfl⟩
  rw [hs.index_current]
  refine (hg.requiredExpression (ht.valid hs) _).bind ?_
  rintro value u hu ⟨⟨h₁, h₂, h₃⟩, hat⟩
  refine Ensures.expectSemicolon.bind ?_
  rintro token v _ ⟨hsemi, -, rfl⟩
  refine (Ensures.rangeFrom _).bind ?_
  rintro span w _ ⟨rfl, rfl⟩
  simp only [State.next_pos] at h₁
  refine Ensures.pure ⟨?_, rfl, ?_⟩
  · show s.pos < u.pos + 1
    omega
  · intro hclean
    refine .returning hreturn (hat hclean) ?_
    rw [← show u.lexeme = s.lexeme from hu.lexeme]
    exact hsemi

theorem Sound.pathImport (hg : g.Sound) (hs : s.Valid) {i : Nat} (hi : s.pos = i + 1)
    (himport : (s.lexeme i).keyword? = some .importKey) :
    Ensures (g.pathImport i) s fun stmt t =>
      i < t.pos ∧ stmt.span = .clamped i t.pos ∧
        (t.errors = s.errors → StmtAt s.lexeme i t.pos stmt) := by
  unfold Level.pathImport
  refine (Ensures.expectName hs _).bind ?_
  rintro x t₁ ht₁ ⟨hx, rfl⟩
  refine (Ensures.expect (by decide) _).bind ?_
  rintro token t₂ ht₂ ⟨hcolon, -, rfl⟩
  refine (hg.path _ x .importing (ht₂.valid (ht₁.valid hs))).bind ?_
  rintro p t₃ ht₃ ⟨hlt, -, hat⟩
  refine Ensures.expectSemicolon.bind ?_
  rintro token t₄ _ ⟨hsemi, -, rfl⟩
  refine (Ensures.rangeFrom _).bind ?_
  rintro span t₅ _ ⟨rfl, rfl⟩
  simp only [State.next_pos] at hlt
  refine Ensures.pure ⟨?_, rfl, ?_⟩
  · show i < t₃.pos + 1
    omega
  · intro hclean
    have hat' := hat hclean
    have hcolon' : (s.lexeme (s.pos + 1)).kind = .doubleColon := hcolon
    simp only [State.next_pos] at hat'
    rw [hi] at hx hcolon' hat'
    refine .importPath himport hx hcolon' hat' ?_
    rw [← show t₃.lexeme = s.lexeme from ht₃.lexeme]
    exact hsemi

theorem Sound.importStatement (hg : g.Sound) (hs : s.Valid)
    (himport : s.current.keyword? = some .importKey) :
    Ensures g.importStatement s (StmtRead s) := by
  have hend : s.current.kind ≠ .endMark := by
    rw [Lexeme.kind_eq_word_of_keyword? himport]
    decide
  unfold Level.importStatement
  refine (Ensures.advance hend).bind ?_
  rintro opening t ht ⟨rfl, rfl⟩
  rw [hs.index_current]
  refine Ensures.current.bind ?_
  rintro token t' _ ⟨rfl, rfl⟩
  split
  · rename_i hext
    have hend' : s.next.current.kind ≠ .endMark := by
      rw [Lexeme.kind_eq_word_of_keyword? hext]
      decide
    refine (Ensures.advance hend').bind ?_
    rintro token u hu ⟨-, rfl⟩
    refine (ensures_resourceImport (hu.valid (ht.valid hs)) rfl himport hext).mono ?_
    rintro stmt v _ ⟨hlt, hspan, hat⟩
    exact ⟨hlt, hspan, fun _ => hat⟩
  · exact Ensures.failHere _
  · exact hg.pathImport (ht.valid hs) rfl himport

/-- A statement was read, or none starts here. -/
theorem Sound.statement (hg : g.Sound) (hs : s.Valid) (inBlock : Bool) :
    Ensures (g.statement inBlock) s fun stmt? t =>
      match stmt? with
      | none => t = s ∧ NoStmt s
      | some stmt => StmtRead s stmt t := by
  unfold Level.statement
  refine Ensures.current.bind ?_
  rintro token t _ ⟨rfl, rfl⟩
  cases hkey : t.current.keyword? with
  | none =>
    refine Ensures.position.bind ?_
    rintro start t' _ ⟨rfl, rfl⟩
    refine (hg.expression hs).bind ?_
    intro e? u hu he
    cases e? with
    | none => exact Ensures.pure ⟨he.1, .inl he.2⟩
    | some e => exact (ensures_expressionStatement hu hkey he).map fun _ _ _ h => h
  | some keyword =>
    cases keyword with
    | letKey => exact (hg.bindingStatement hs hkey).map fun _ _ _ h => h
    | returnKey => exact (hg.returnStatement hs hkey).map fun _ _ _ h => h
    | importKey => exact (hg.importStatement hs hkey).map fun _ _ _ h => h
    | varKey => exact Ensures.failHere _
    | asKey => exact Ensures.failHere _
    | externKey => exact Ensures.failHere _
    | actionKey =>
      have hkind : t.current.keyword?.bind Keyword.functionKind? = some .action := by
        rw [hkey]
        rfl
      refine (hg.functionStatement hs hkind inBlock).mono ?_
      rintro (_ | stmt) u _ h
      · exact ⟨h.1, .inr ⟨_, hkind, h.2⟩⟩
      · exact h
    | computeKey =>
      have hkind : t.current.keyword?.bind Keyword.functionKind? = some .compute := by
        rw [hkey]
        rfl
      refine (hg.functionStatement hs hkind inBlock).mono ?_
      rintro (_ | stmt) u _ h
      · exact ⟨h.1, .inr ⟨_, hkind, h.2⟩⟩
      · exact h

end Level

end FrontEnd.Grammar
