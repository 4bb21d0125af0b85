import FrontEnd.Proofs.Acceptance.Path

/-! The rules for statements read every statement that stands in the tokens. -/
namespace FrontEnd.Grammar

open Parse

variable {bad : Diagnostic → Prop} {s : State} {j : Nat}

theorem kind_ne_endMark_of_keyword? {lexeme : Lexeme} {keyword : Keyword}
    (h : lexeme.keyword? = some keyword) : lexeme.kind ≠ .endMark := by
  rw [Lexeme.kind_eq_word_of_keyword? h]
  decide

/-- A keyword that was looked at can be passed. -/
theorem State.Valid.passKeyword {i : Nat} {keyword : Keyword} (h : (s.moveTo i).Valid)
    (hkey : (s.lexeme i).keyword? = some keyword) : (s.moveTo (i + 1)).Valid :=
  h.moveTo_succ (kind_ne_endMark_of_keyword? hkey)

theorem isKeyword_of_keyword? {lexeme : Lexeme} {keyword : Keyword}
    (h : lexeme.keyword? = some keyword) : lexeme.isKeyword keyword = true := by
  simp [Lexeme.isKeyword, h]

/-- An expression statement ends with its semicolon. -/
theorem achieves_expressionStatement {i : Nat} {e : Expr} (hj : (s.moveTo j).Valid)
    (hsemi : (s.lexeme j).kind = .semicolon) (halone : e.canStandAlone = true) :
    Achieves bad (expressionStatement e i) (s.moveTo j) (.expr e (.clamped i (j + 1)))
      (s.moveTo (j + 1)) := by
  have hsemi' : (s.moveTo j).current.kind = .semicolon := hsemi
  unfold expressionStatement
  refine Achieves.step run_current ?_
  rw [if_neg (not_not_intro hsemi'), if_neg (by rw [halone]; decide)]
  refine Achieves.step (run_expectSemicolon hsemi') ?_
  exact Achieves.step rfl (Achieves.pure (hj.pass hsemi (by decide)))

theorem achieves_resourceImport {i : Nat} {x : Ident} (hs : (s.moveTo (i + 2)).Valid)
    (hstring : (s.lexeme (i + 2)).kind = .string)
    (has : (s.lexeme (i + 3)).keyword? = some .asKey) (hx : NameAt s.lexeme (i + 4) x)
    (hsemi : (s.lexeme (i + 5)).kind = .semicolon) :
    Achieves bad (resourceImport i) (s.moveTo (i + 2))
      (.importResource ⟨.string, (s.lexeme (i + 2)).value, .single (i + 2)⟩ x
        (.clamped i (i + 6))) (s.moveTo (i + 6)) := by
  have hstring' : (s.moveTo (i + 2)).current.kind = .string := hstring
  have has' : (s.moveTo (i + 3)).current.isKeyword .asKey = true := isKeyword_of_keyword? has
  have hend : (s.moveTo (i + 3)).current.kind ≠ .endMark := kind_ne_endMark_of_keyword? has
  have h₃ : (s.moveTo (i + 3)).Valid := hs.pass hstring (by decide)
  have h₄ : (s.moveTo (i + 4)).Valid := h₃.passKeyword has
  have h₅ : (s.moveTo (i + 5)).Valid := h₄.moveTo_succ hx.kind_ne_endMark
  unfold resourceImport
  refine Achieves.step (run_expect (by decide) hstring' _) ?_
  rw [hs.index_current]
  refine Achieves.step (run_current (s := s.moveTo (i + 3))) ?_
  rw [if_neg (by rw [has']; decide)]
  refine Achieves.step (run_advance hend) ?_
  refine Achieves.step (run_expectName (s := s.moveTo (i + 4)) h₄ hx _) ?_
  refine Achieves.step (run_expectSemicolon (s := s.moveTo (i + 5)) hsemi) ?_
  exact Achieves.step rfl (Achieves.pure (h₅.pass hsemi (by decide)))

/-- The header of a declaration is not read where none stands. -/
theorem run_declarationHeader_error (hs : s.Valid) {kind : FunctionKind}
    (hkind : (s.lexeme s.pos).keyword?.bind Keyword.functionKind? = some kind)
    (hn : ¬ DeclaresAt s.lexeme s.pos) :
    ∃ d t, declarationHeader s = .error d t ∧ Grows s t := by
  have hheader := ensures_declarationHeader hs hkind
  cases hrun : declarationHeader s with
  | ok header t =>
    obtain ⟨hst, -, -, -, -, hat, hopen⟩ := hheader.ok hrun
    refine absurd ⟨t.pos, kind, header.2, header.1.params, hat, ?_⟩ hn
    rw [← hst.lexeme]
    exact hopen
  | error d t =>
    have hgrows := hheader.grows
    rw [hrun] at hgrows
    exact ⟨d, t, rfl, hgrows⟩
  | fault f t => exact absurd hrun (hheader.no_fault f t)

namespace Level

variable {g : Level} [g.Keeps]

theorem Complete.bindingFrom (hg : g.Complete bad) {i k : Nat} {mutable : Bool} {x : Ident}
    {value : Expr} (hs : (s.moveTo k).Valid) (hx : NameAt s.lexeme k x)
    (hassign : (s.lexeme (k + 1)).kind = .assign) (hvalue : ExprAt s.lexeme (k + 2) j value)
    (hsemi : (s.lexeme j).kind = .semicolon) :
    Achieves bad (g.bindingFrom i mutable) (s.moveTo k)
      (.binding mutable x value (.clamped i (j + 1))) (s.moveTo (j + 1)) := by
  have h₁ : (s.moveTo (k + 1)).Valid := hs.moveTo_succ hx.kind_ne_endMark
  have h₂ : (s.moveTo (k + 2)).Valid := h₁.pass hassign (by decide)
  unfold Level.bindingFrom
  refine Achieves.step (run_expectName hs hx _) ?_
  refine Achieves.step (run_expect (s := s.moveTo (k + 1)) (by decide) hassign _) ?_
  refine (hg.requiredExpression (s := s.moveTo (k + 2)) h₂ hvalue _).bind ?_ inferInstance
  intro hj
  refine Achieves.step (run_expectSemicolon (s := s.moveTo j) hsemi) ?_
  exact Achieves.step rfl (Achieves.pure (hj.pass hsemi (by decide)))

theorem Complete.bindingStatement (hg : g.Complete bad) (hs : s.Valid) {k : Nat}
    {mutable : Bool} {x : Ident} {value : Expr}
    (hlet : (s.lexeme s.pos).keyword? = some .letKey)
    (hmutable : mutable = (s.lexeme (s.pos + 1)).isKeyword .varKey)
    (hk : k = s.pos + 1 + mutable.toNat) (hx : NameAt s.lexeme k x)
    (hassign : (s.lexeme (k + 1)).kind = .assign) (hvalue : ExprAt s.lexeme (k + 2) j value)
    (hsemi : (s.lexeme j).kind = .semicolon) :
    Achieves bad g.bindingStatement s (.binding mutable x value (.clamped s.pos (j + 1)))
      (s.moveTo (j + 1)) := by
  have hnext : (s.moveTo (s.pos + 1)).Valid := State.Valid.passKeyword hs hlet
  unfold Level.bindingStatement
  refine Achieves.step (run_advance (kind_ne_endMark_of_keyword? hlet)) ?_
  rw [hs.index_current]
  refine Achieves.step (show isAtKeyword .varKey s.next = .ok mutable s.next by
    rw [hmutable]
    rfl) ?_
  cases mutable with
  | false =>
    obtain rfl : k = s.pos + 1 := hk
    exact hg.bindingFrom hnext hx hassign hvalue hsemi
  | true =>
    obtain rfl : k = s.pos + 2 := hk
    have hvar : s.next.current.kind ≠ .endMark := by
      intro hend
      have hkey : s.next.current.isKeyword .varKey = true := hmutable.symm
      simp [Lexeme.isKeyword, Lexeme.keyword?, hend] at hkey
    refine Achieves.step (run_advance hvar) ?_
    exact hg.bindingFrom (hnext.moveTo_succ hvar) hx hassign hvalue hsemi

omit [g.Keeps] in
theorem Complete.declared (hg : g.Complete bad) {i k : Nat} {kind : FunctionKind} {x : Ident}
    {params : List Ident} {body : Block} (hk : (s.moveTo k).Valid) (hik : i ≤ k)
    (hbody : BlockAt s.lexeme k j body) (htail : kind = .action → body.tail = none) :
    Achieves bad (g.declared ⟨kind, some x, params, i⟩ x) (s.moveTo k)
      (some (.function kind x params body ⟨i, body.span.stop⟩)) (s.moveTo j) := by
  unfold Level.declared
  refine (hg.block (s := s.moveTo k) hk hbody).bind ?_ inferInstance
  intro hj
  have hallowed : ¬ (kind = .action ∧ body.hasTail = true) := by
    rintro ⟨haction, hhas⟩
    rw [Block.hasTail, htail haction] at hhas
    cases hhas
  have hspan : i ≤ body.span.stop := by
    have := hbody.lt
    rw [hbody.span_eq]
    show i ≤ j
    omega
  rw [if_neg hallowed]
  exact Achieves.step (run_rangeBetween hspan) (Achieves.pure hj)

omit [g.Keeps] in
theorem Complete.functionStatement (hg : g.Complete bad) (hs : s.Valid) {k : Nat}
    {kind : FunctionKind} {x : Ident} {params : List Ident} {body : Block}
    (hheader : SignatureAt s.lexeme s.pos k kind (some x) params)
    (hbody : BlockAt s.lexeme k j body) (htail : kind = .action → body.tail = none)
    (inBlock : Bool) :
    Achieves bad (g.functionStatement inBlock) s
      (some (.function kind x params body ⟨s.pos, body.span.stop⟩)) (s.moveTo j) := by
  unfold Achieves
  rw [run_functionStatement_ok (run_declarationHeader hs hheader hbody.openCurly)]
  exact hg.declared (run_signature hs hheader).2 (Nat.le_of_lt hheader.lt) hbody htail

omit [g.Keeps] in
/-- In a block a header that declares nothing is left for the value of the block. -/
theorem run_functionStatement_none (hs : s.Valid) {kind : FunctionKind}
    (hkind : (s.lexeme s.pos).keyword?.bind Keyword.functionKind? = some kind)
    (hn : ¬ DeclaresAt s.lexeme s.pos) : g.functionStatement true s = .ok none s := by
  obtain ⟨d, t, hrun, hst⟩ := run_declarationHeader_error hs hkind hn
  rw [run_functionStatement_error hrun hst]
  rfl

theorem Complete.returnStatement (hg : g.Complete bad) (hs : s.Valid) {value : Expr}
    (hkey : (s.lexeme s.pos).keyword? = some .returnKey)
    (hvalue : ExprAt s.lexeme (s.pos + 1) j value) (hsemi : (s.lexeme j).kind = .semicolon) :
    Achieves bad g.returnStatement s (.returning value (.clamped s.pos (j + 1)))
      (s.moveTo (j + 1)) := by
  have hnext : (s.moveTo (s.pos + 1)).Valid := State.Valid.passKeyword hs hkey
  unfold Level.returnStatement
  refine Achieves.step (run_advance (kind_ne_endMark_of_keyword? hkey)) ?_
  rw [hs.index_current]
  refine (hg.requiredExpression hnext hvalue _).bind ?_ inferInstance
  intro hj
  refine Achieves.step (run_expectSemicolon (s := s.moveTo j) hsemi) ?_
  exact Achieves.step rfl (Achieves.pure (hj.pass hsemi (by decide)))

omit [g.Keeps] in
theorem ReadsPaths.pathImport {fits : Nat → Path → Prop} (hg : g.ReadsPaths bad fits) {i : Nat}
    {x : Ident} {p : Path} (hs : (s.moveTo (i + 1)).Valid) (hx : NameAt s.lexeme (i + 1) x)
    (hcolon : (s.lexeme (i + 2)).kind = .doubleColon)
    (hpath : PathAt s.lexeme .importing x (i + 3) j p) (hfits : fits s.depth p)
    (hsemi : (s.lexeme j).kind = .semicolon) :
    Achieves bad (g.pathImport i) (s.moveTo (i + 1)) (.importPath p (.clamped i (j + 1)))
      (s.moveTo (j + 1)) := by
  have h₂ : (s.moveTo (i + 2)).Valid := hs.moveTo_succ hx.kind_ne_endMark
  have h₃ : (s.moveTo (i + 3)).Valid := h₂.pass hcolon (by decide)
  unfold Level.pathImport
  refine Achieves.step (run_expectName hs hx _) ?_
  refine Achieves.step (run_expect (s := s.moveTo (i + 2)) (by decide) hcolon _) ?_
  refine (hg.path (s := s.moveTo (i + 3)) h₃ hpath hfits).bind ?_ inferInstance
  intro hj
  refine Achieves.step (run_expectSemicolon (s := s.moveTo j) hsemi) ?_
  exact Achieves.step rfl (Achieves.pure (hj.pass hsemi (by decide)))

omit [g.Keeps] in
theorem ReadsPaths.importStatement {fits : Nat → Path → Prop} (hg : g.ReadsPaths bad fits)
    (hs : s.Valid) {stmt : Stmt} (h : StmtAt s.lexeme s.pos j stmt)
    (hfits : ∀ p span, stmt = .importPath p span → fits s.depth p)
    (hkey : (s.lexeme s.pos).keyword? = some .importKey) :
    Achieves bad g.importStatement s stmt (s.moveTo j) := by
  have hother : ∀ {keyword : Keyword}, (s.lexeme s.pos).keyword? = some keyword →
      keyword ≠ .importKey → False := by
    intro keyword h hne
    rw [hkey] at h
    exact hne (Option.some.inj h).symm
  have hnext : (s.moveTo (s.pos + 1)).Valid := State.Valid.passKeyword hs hkey
  unfold Level.importStatement
  refine Achieves.step (run_advance (kind_ne_endMark_of_keyword? hkey)) ?_
  rw [hs.index_current]
  refine Achieves.step (run_current (s := s.next)) ?_
  cases h with
  | expr hno _ _ _ =>
    rw [hkey] at hno
    cases hno
  | binding hlet _ _ _ _ _ _ => exact (hother hlet (by decide)).elim
  | returning hreturn _ _ => exact (hother hreturn (by decide)).elim
  | function hheader _ _ =>
    have hkind := hheader.functionKind?
    rw [hkey] at hkind
    cases hkind
  | importResource _ hext hstring has hx hsemi =>
    have hext' : s.next.current.keyword? = some .externKey := hext
    simp only [hext']
    refine Achieves.step (run_advance (kind_ne_endMark_of_keyword? hext)) ?_
    exact achieves_resourceImport (hnext.passKeyword hext) hstring has hx hsemi
  | importPath _ hx hcolon hpath hsemi =>
    have hx' : s.next.current.keyword? = none := hx.2.1
    simp only [hx']
    exact hg.pathImport hnext hx hcolon hpath (hfits _ _ rfl) hsemi

omit [g.Keeps] in
/-- A keyword decides which statement follows. -/
theorem run_statement_keyword {keyword : Keyword} {form : StatementForm} {inBlock : Bool}
    (hkey : (s.lexeme s.pos).keyword? = some keyword)
    (hform : keyword.statementForm? = some form) :
    g.statement inBlock s = g.statementOf form inBlock s := by
  have hkey' : s.current.keyword? = some keyword := hkey
  unfold statement
  rw [run_bind run_current]
  simp only [hkey', hform]

theorem statementForm?_of_functionKind? {keyword : Keyword} {kind : FunctionKind}
    (h : keyword.functionKind? = some kind) : keyword.statementForm? = some .function := by
  cases keyword <;> first | rfl | cases h

theorem Complete.statement (hg : g.Complete bad) (hs : s.Valid) {stmt : Stmt}
    (h : StmtAt s.lexeme s.pos j stmt) (inBlock : Bool) :
    Achieves bad (g.statement inBlock) s (some stmt) (s.moveTo j) := by
  have himport : (s.lexeme s.pos).keyword? = some .importKey →
      Achieves bad (g.statement inBlock) s (some stmt) (s.moveTo j) := by
    intro hkey
    unfold Achieves
    rw [run_statement_keyword hkey rfl]
    exact (hg.readsPaths.importStatement hs h (fun _ _ _ => trivial) hkey).map
  cases h with
  | expr hno he hsemi halone =>
    have hno' : s.current.keyword? = none := hno
    unfold Level.statement
    refine Achieves.step run_current ?_
    simp only [hno']
    refine Achieves.step run_position ?_
    refine (hg.expression hs he).bind ?_ (by rintro (_ | e) <;> infer_instance)
    intro hj
    exact (achieves_expressionStatement hj hsemi halone).map
  | binding hlet hmutable hk hx hassign hvalue hsemi =>
    unfold Achieves
    rw [run_statement_keyword hlet rfl]
    exact (hg.bindingStatement hs hlet hmutable hk hx hassign hvalue hsemi).map
  | @function _ _ _ kind _ _ _ hheader hbody htail =>
    obtain ⟨keyword, hkey, hfunction⟩ := Option.bind_eq_some_iff.mp hheader.functionKind?
    unfold Achieves
    rw [run_statement_keyword hkey (statementForm?_of_functionKind? hfunction)]
    exact hg.functionStatement hs hheader hbody htail inBlock
  | returning hkey hvalue hsemi =>
    unfold Achieves
    rw [run_statement_keyword hkey rfl]
    exact (hg.returnStatement hs hkey hvalue hsemi).map
  | importResource hkey _ _ _ _ _ => exact himport hkey
  | importPath hkey _ _ _ _ => exact himport hkey

end Level

end FrontEnd.Grammar
