import FrontEnd.Proofs.Depth.Room
import FrontEnd.Proofs.Relocation

/-! Parentheses that are not needed. An expression in parentheses of its own is read as the same
tree, one token further on; all that the parentheses can add is a nesting level too many. -/
namespace FrontEnd.Grammar

open Parse

variable {T T' : Nat → Lexeme} {i j k m : Nat}

/-- An expression that stands between parentheses somewhere else is a whole expression together
with them. -/
theorem ExprAt.parenthesized {e : Expr} (he : ExprAt T i j e)
    (hsame : ∀ n, n < j → T' (k + n) = T n) (hm : k + i = m + 1)
    (hopen : (T' m).kind = .openParen) (hclose : (T' (k + j)).kind = .closeParen)
    (hafter : Delimits (T' (k + j + 1))) : ExprAt T' m (k + j + 1) (e.shift k) := by
  have hmoved := he.relocate ⟨hsame, .of_kind (by simp [hclose])⟩ (Nat.le_refl j)
  rw [hm] at hmoved
  have hcalled := OperandAt.called (.grouping hopen hmoved hclose) (.done hafter.not_paren)
  exact .mk hcalled .nil (.operand _) hafter.loose

/-- Tokens show the same behind an opening token, one place further on, whatever follows them. -/
theorem lexeme_enclosed (opening : Token) {tokens : List Token} (rest rest' : List Token) {n : Nat}
    (hn : n < tokens.length) :
    (State.ofTokens (opening :: (tokens ++ rest))).lexeme (1 + n) =
      (State.ofTokens (tokens ++ rest')).lexeme n := by
  have hinner : (tokens ++ rest')[n]? = some tokens[n] := by
    rw [List.getElem?_append_left hn, List.getElem?_eq_getElem hn]
  have houter : (opening :: (tokens ++ rest))[1 + n]? = some tokens[n] := by
    rw [Nat.add_comm, List.getElem?_cons_succ, List.getElem?_append_left hn,
      List.getElem?_eq_getElem hn]
  show (TokenStream.ofTokens _).lexeme (1 + n) = (TokenStream.ofTokens _).lexeme n
  rw [TokenStream.lexeme_ofTokens houter, TokenStream.lexeme_ofTokens hinner]

/-- Parentheses around a whole expression cannot be seen in its tree. Where `tokens` are read as an
expression up to the semicolon behind them, they are read in parentheses as the same expression,
with every range moved on by one token, up to the semicolon too; or else a nesting level is
refused. -/
theorem expression_parenthesized {tokens : List Token} {opening closing semicolon : Token}
    (hopen : opening.kind = .openParen) (hclose : closing.kind = .closeParen)
    (hsemi : semicolon.kind = .semicolon) {e : Expr} {t : State}
    (hrun : expression (.ofTokens (tokens ++ [semicolon])) = .ok (some e) t)
    (hpos : t.pos = tokens.length) (hclean : t.errors = []) :
    let s := State.ofTokens (opening :: (tokens ++ [closing, semicolon]))
    (expression s).lacksLevel s = true ∨
      ∃ u, expression s = .ok (some (e.shift 1)) u ∧ u.pos = tokens.length + 2 ∧
        u.current.kind = .semicolon ∧ u.errors = [] := by
  intro s
  have hread : ExprAt (State.ofTokens (tokens ++ [semicolon])).lexeme 0 tokens.length e := by
    obtain ⟨-, -, hat⟩ := (Ensures.atDepth fun room =>
      (Level.withRoom_sound room).expression (State.valid_ofTokens _)).ok hrun
    rw [← hpos]
    exact hat hclean
  have hshows : ∀ {n token}, (opening :: (tokens ++ [closing, semicolon]))[n]? = some token →
      s.lexeme n = token.toLexeme := TokenStream.lexeme_ofTokens
  have hlast : s.lexeme (1 + tokens.length) = closing.toLexeme :=
    hshows (by rw [Nat.add_comm]; simp)
  have hend : s.lexeme (1 + tokens.length + 1) = semicolon.toLexeme :=
    hshows (by rw [Nat.add_comm 1]; simp)
  -- between the parentheses the closing one ends the expression, in the place of the semicolon
  have hat : ExprAt s.lexeme s.pos (1 + tokens.length + 1) (e.shift 1) := by
    apply hread.parenthesized (m := 0)
    · intro n hn
      exact lexeme_enclosed opening _ _ hn
    · rfl
    · rw [hshows rfl, hopen]
    · rw [hlast, hclose]
    · exact .of_kind (by rw [hend]; simp [hsemi])
  rcases lacksLevel_or_expression_eq (State.valid_ofTokens _) hat with hlacks | hrun'
  · exact .inl hlacks
  · right
    refine ⟨s.moveTo (1 + tokens.length + 1), hrun', ?_, ?_, rfl⟩
    · show 1 + tokens.length + 1 = tokens.length + 2
      omega
    · exact (congrArg Lexeme.kind hend).trans hsemi

/-- The tokens of `a = compute(x) -> -x`. -/
def assignedTokens : List Token :=
  [⟨.word "a", ⟨0, 1⟩, 0⟩, ⟨.fixed .assign, ⟨2, 3⟩, 1⟩, ⟨.word "compute", ⟨4, 11⟩, 2⟩,
    ⟨.fixed .openParen, ⟨11, 12⟩, 3⟩, ⟨.word "x", ⟨12, 13⟩, 4⟩, ⟨.fixed .closeParen, ⟨13, 14⟩, 5⟩,
    ⟨.fixed .arrow, ⟨15, 17⟩, 6⟩, ⟨.fixed .dash, ⟨18, 19⟩, 7⟩, ⟨.word "x", ⟨19, 20⟩, 8⟩]

def openingToken : Token := ⟨.fixed .openParen, ⟨0, 1⟩, 0⟩

def closingToken : Token := ⟨.fixed .closeParen, ⟨22, 23⟩, 0⟩

def semicolonToken : Token := ⟨.fixed .semicolon, ⟨20, 21⟩, 0⟩

/-- A function that goes on up to the semicolon goes on up to the parenthesis in its place. -/
theorem expression_parenthesized_assigned :
    ∃ e t u,
      expression (.ofTokens (assignedTokens ++ [semicolonToken])) = .ok (some e) t ∧
        t.pos = 9 ∧ t.errors = [] ∧
      expression (.ofTokens (openingToken :: (assignedTokens ++ [closingToken, semicolonToken]))) =
        .ok (some (e.shift 1)) u ∧ u.pos = 11 := by
  have hfacts : (expression (.ofTokens (assignedTokens ++ [semicolonToken]))).read?.map (fun r =>
      (r.2.pos, r.2.errors)) = some (9, []) := by
    decide +kernel
  obtain ⟨⟨e, t⟩, hread, hfacts⟩ := Option.map_eq_some_iff.mp hfacts
  obtain ⟨hpos, hclean⟩ := Prod.mk.inj hfacts
  have hopen : openingToken.kind = .openParen := rfl
  have hclose : closingToken.kind = .closeParen := rfl
  have hrun := Outcome.eq_of_read? hread
  rcases expression_parenthesized hopen hclose rfl hrun hpos hclean with
    hlacks | ⟨u, hrun', hpos', -, -⟩
  · exact absurd hlacks (by decide +kernel)
  · exact ⟨e, t, u, hrun, hpos, hclean, hrun', hpos'⟩

end FrontEnd.Grammar
