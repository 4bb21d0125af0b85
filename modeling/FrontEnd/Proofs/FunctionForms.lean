import FrontEnd.Proofs.Depth.Room
import FrontEnd.Proofs.Proper

/-! The two forms of a function. A declaration has a name and a block for its body, and ends with
the block; an expression may go without either, and goes on as far as it can. Where nothing behind
the block continues an expression, the two forms are read alike. -/
namespace FrontEnd.Grammar

open Parse

variable {T : Nat → Lexeme} {i j : Nat} {s t u : State}

/-- An expression without operators is a whole one if nothing behind it goes on with it. -/
theorem PrimaryAt.exprAt {e : Expr} (h : PrimaryAt T i j e) (hparen : (T j).kind ≠ .openParen)
    (hop : Operation.binary? (T j) = none) : ExprAt T i j e := by
  have hpower : (T j).bindingPower? = none := by
    simp [Lexeme.bindingPower?, hop]
  exact .mk (.called h (.done hparen)) .nil (.operand e) hpower

/-- A declaration is an expression too. The block of a compute is then an expression of its own,
which has to end where the function does. -/
theorem StmtAt.exprAt {kind : FunctionKind} {name : Ident} {params : List Ident} {body : Block}
    {span : TokenRange} (h : StmtAt T i j (.function kind name params body span))
    (hparen : (T j).kind ≠ .openParen) (hop : Operation.binary? (T j) = none) :
    ExprAt T i j (.function kind (some name) params (.block body) span) := by
  cases h with
  | function hheader hbody htail =>
    cases kind with
    | action => exact (PrimaryAt.action hheader hbody (htail rfl)).exprAt hparen hop
    | compute =>
      have hblock := (PrimaryAt.block hbody).exprAt hparen hop
      exact (PrimaryAt.compute hheader hblock).exprAt hparen hop

/-- Behind a declaration that was read without a diagnostic nothing may go on with an expression:
then the declaration stands there as an expression. -/
theorem exprAt_of_declaration (hs : s.Valid) {keyword : FunctionKind}
    (hkeyword : s.current.keyword?.bind Keyword.functionKind? = some keyword) {inBlock : Bool}
    {kind : FunctionKind} {name : Ident} {params : List Ident} {body : Block} {span : TokenRange}
    (hrun : statementOf .function inBlock s = .ok (some (.function kind name params body span)) t)
    (hclean : t.errors = s.errors) (hparen : t.current.kind ≠ .openParen)
    (hop : Operation.binary? t.current.toLexeme = none) :
    ExprAt s.lexeme s.pos t.pos (.function kind (some name) params (.block body) span) := by
  obtain ⟨hst, -, -, hat⟩ :=
    ((Level.withRoom_sound (maxDepth - s.depth)).functionStatement hs hkeyword inBlock).ok hrun
  have hnext : t.current.toLexeme = s.lexeme t.pos := by
    rw [State.toLexeme_current, hst.lexeme]
  rw [hnext] at hparen hop
  exact (hat hclean).exprAt hparen hop

/-- A function is the same in both forms. Where a declaration and an expression are read from one
state without a diagnostic, and the token behind the declaration opens no call and is no operator
between operands, the expression is that function, with the block of the declaration for its body
and the same ranges, and both end at the same token. -/
theorem expression_eq_declaration (hs : s.Valid) {keyword : FunctionKind}
    (hkeyword : s.current.keyword?.bind Keyword.functionKind? = some keyword) {inBlock : Bool}
    {kind : FunctionKind} {name : Ident} {params : List Ident} {body : Block} {span : TokenRange}
    (hdeclared : statementOf .function inBlock s =
      .ok (some (.function kind name params body span)) t)
    (hclean : t.errors = s.errors) {e : Expr} (hread : expression s = .ok (some e) u)
    (hclean' : u.errors = s.errors) (hparen : t.current.kind ≠ .openParen)
    (hop : Operation.binary? t.current.toLexeme = none) :
    e = .function kind (some name) params (.block body) span ∧ u.pos = t.pos := by
  have hat := exprAt_of_declaration hs hkeyword hdeclared hclean hparen hop
  rcases lacksLevel_or_expression_eq hs hat with hlacks | hrun
  · rw [hread] at hlacks
    simp [Outcome.lacksLevel, Outcome.diagnostic?, Outcome.state, hclean'] at hlacks
  · rw [hread] at hrun
    cases hrun
    exact ⟨rfl, rfl⟩

/-- The tokens of `compute f(x) -> { x };`. -/
def computeTokens : List Token :=
  [⟨.word "compute", ⟨0, 7⟩, 0⟩, ⟨.word "f", ⟨8, 9⟩, 1⟩, ⟨.fixed .openParen, ⟨9, 10⟩, 2⟩,
    ⟨.word "x", ⟨10, 11⟩, 3⟩, ⟨.fixed .closeParen, ⟨11, 12⟩, 4⟩, ⟨.fixed .arrow, ⟨13, 15⟩, 5⟩,
    ⟨.fixed .openCurly, ⟨16, 17⟩, 6⟩, ⟨.word "x", ⟨18, 19⟩, 7⟩, ⟨.fixed .closeCurly, ⟨20, 21⟩, 8⟩,
    ⟨.fixed .semicolon, ⟨21, 22⟩, 9⟩]

/-- A compute whose block has a value is read as a declaration, and as an expression in which the
block is read by the rules for a whole expression. -/
theorem expression_eq_declaration_compute :
    ∃ kind name params body span t u,
      statementOf .function true (.ofTokens computeTokens) =
        .ok (some (.function kind name params body span)) t ∧
      expression (.ofTokens computeTokens) =
        .ok (some (.function kind (some name) params (.block body) span)) u ∧
      (Tree.blockBlocks body).map Block.hasTail = [true] ∧ t.pos = 9 ∧ u.pos = 9 := by
  have hfacts : (statementOf .function true (.ofTokens computeTokens)).read?.map (fun r =>
      (r.1.kind, (Tree.stmtBlocks r.1).map Block.hasTail, r.2.pos, r.2.errors,
        r.2.current.kind)) = some (.function, [true], 9, [], .semicolon) := by
    decide +kernel
  have hclean : (expression (.ofTokens computeTokens)).read?.map (·.2.errors) = some [] := by
    decide +kernel
  obtain ⟨⟨stmt, t⟩, hdeclared, hfacts⟩ := Option.map_eq_some_iff.mp hfacts
  obtain ⟨⟨e, u⟩, hread, hclean⟩ := Option.map_eq_some_iff.mp hclean
  simp only [Prod.mk.injEq] at hfacts
  obtain ⟨hkind, htail, hpos, hclean', hsemi⟩ := hfacts
  cases stmt with
  | function kind name params body span =>
    have hdeclared' := Outcome.eq_of_read? hdeclared
    have hread' := Outcome.eq_of_read? hread
    have hop : Operation.binary? t.current.toLexeme = none := by
      simp [Operation.binary?, hsemi]
    obtain ⟨rfl, hsame⟩ := expression_eq_declaration (State.valid_ofTokens computeTokens)
      (show _ = some .compute by decide) hdeclared' hclean' hread' hclean
      (by rw [hsemi]; decide) hop
    rw [Tree.stmtBlocks] at htail
    exact ⟨kind, name, params, body, span, t, u, hdeclared', hread', htail, hpos,
      hsame.trans hpos⟩
  | _ => cases hkind

end FrontEnd.Grammar
