import FrontEnd.Proofs.Extent
import FrontEnd.Proofs.Printing.Basic

/-! Printed expressions. The printer leaves parentheses out where the table of precedences allows
it, so a printed operand need not be an operand of the grammar: it may be a chain of its own, which
is joined to the chain around it. A printed expression therefore stands for a chain, and the tree
of the chain is the printed one because no operator of it binds looser than the tree does. -/
namespace FrontEnd.Grammar

open Piece FrontEnd.Tree

section

variable (T : Nat → Lexeme)

/-- A chain that is grouped as the expression is, with no operator that binds looser. -/
def ChainedAt (i j : Nat) (e : Expr) : Prop :=
  ∃ k u links e', OperandAt T i k u ∧ LinksAt T k j links ∧ Grouped u links e' ∧
    e'.erase = e.erase ∧ ∀ l ∈ links, e.precedence ≤ l.1.level

/-- The expression, before calls that may still follow. -/
def CalledAt (i j : Nat) (e : Expr) : Prop :=
  ∃ k callee e', PrimaryAt T i k callee ∧ e'.erase = e.erase ∧
    ∀ j' e'', CallsAt T j j' e' e'' → CallsAt T k j' callee e''

/-- The grammar finds the expression where it is printed. Which lexemes may not follow depends on
the expression: a name would be called by a parenthesis, and a function takes every operator. -/
structure Stands (e : Expr) : Prop where
  called : ∀ {i j : Nat}, PiecesAt T i j (exprPieces e) → e.precedence = callPrecedence →
    (T j).kind ≠ .doubleColon → (e.kind = .ident → (T j).kind ≠ .openParen) → CalledAt T i j e
  chained : ∀ {i j : Nat}, PiecesAt T i j (exprPieces e) → (T j).kind ≠ .doubleColon →
    (T j).kind ≠ .openParen → (e.kind = .function → (T j).bindingPower? = none) →
    ChainedAt T i j e

end

variable {T : Nat → Lexeme} {i j : Nat} {e : Expr}

theorem CalledAt.operandAt (h : CalledAt T i j e) (hparen : (T j).kind ≠ .openParen) :
    ∃ u, OperandAt T i j u ∧ u.erase = e.erase := by
  obtain ⟨k, callee, e', hcallee, he, hcalls⟩ := h
  exact ⟨e', .called hcallee (hcalls j e' (.done hparen)), he⟩

theorem chainedAt_of_operandAt {u : Expr} (h : OperandAt T i j u) (he : u.erase = e.erase) :
    ChainedAt T i j e :=
  ⟨j, u, [], u, h, .nil, .operand u, he, by simp⟩

theorem calledAt_of_primaryAt {e' : Expr} (h : PrimaryAt T i j e') (he : e'.erase = e.erase) :
    CalledAt T i j e :=
  ⟨j, e', e', h, he, fun _ _ hcalls => hcalls⟩

/-- An expression without operators stands wherever it does before calls. -/
theorem Stands.of_called
    (h : ∀ {i j : Nat}, PiecesAt T i j (exprPieces e) → (T j).kind ≠ .doubleColon →
      (e.kind = .ident → (T j).kind ≠ .openParen) → CalledAt T i j e) : Stands T e where
  called hp _ hcolon hparen := h hp hcolon hparen
  chained hp hcolon hparen _ := by
    obtain ⟨u, hu, he⟩ := (h hp hcolon fun _ => hparen).operandAt hparen
    exact chainedAt_of_operandAt hu he

theorem ChainedAt.exprAt (h : ChainedAt T i j e) (hend : (T j).bindingPower? = none) :
    ∃ e', ExprAt T i j e' ∧ e'.erase = e.erase := by
  obtain ⟨k, u, links, e', hu, hlinks, hgroup, he, -⟩ := h
  exact ⟨e', .mk hu hlinks hgroup hend, he⟩

/-- The lexemes that a whole expression is followed by. -/
def closers : List TokenKind := [.closeParen, .comma, .semicolon, .closeCurly]

theorem bindingPower?_of_closer {kind : TokenKind} (h : kind ∈ closers) :
    (Lexeme.fixed kind).bindingPower? = none ∧ kind ≠ .doubleColon ∧ kind ≠ .openParen := by
  simp only [closers, List.mem_cons, List.not_mem_nil, or_false] at h
  rcases h with rfl | rfl | rfl | rfl <;> decide

theorem Stands.exprAt (h : Stands T e) {kind : TokenKind} (hp : PiecesAt T i j (exprPieces e))
    (hj : T j = .fixed kind) (hkind : kind ∈ closers) :
    ∃ e', ExprAt T i j e' ∧ e'.erase = e.erase := by
  obtain ⟨hpower, hcolon, hparen⟩ := bindingPower?_of_closer hkind
  have hk := kind_eq_of_fixed hj
  rw [← hj] at hpower
  exact (h.chained hp (hk ▸ hcolon) (hk ▸ hparen) fun _ => hpower).exprAt hpower

/-- In parentheses every expression is one without operators. -/
theorem Stands.parenthesized (h : Stands T e)
    (hp : PiecesAt T i j (Piece.parenthesized (exprPieces e))) : CalledAt T i j e := by
  simp only [Piece.parenthesized, List.cons_append, piecesAt_fixed, piecesAt_append,
    piecesAt_nil] at hp
  obtain ⟨hopen, k, hp, hclose, rfl⟩ := hp
  obtain ⟨e', he', he⟩ := h.exprAt hp hclose (by decide)
  exact calledAt_of_primaryAt
    (.grouping (kind_eq_of_fixed hopen) he' (kind_eq_of_fixed hclose)) he

theorem precedence_of_function (h : e.kind = .function) : e.precedence = 0 := by
  cases e <;> first | rfl | cases h

/-- An operand of an operator, with the parentheses that it needs. -/
theorem Stands.operand (h : Stands T e) {needed : Bool}
    (hp : PiecesAt T i j (Piece.operand needed (exprPieces e)))
    (hneeded : needed = false → 0 < e.precedence) (hcolon : (T j).kind ≠ .doubleColon)
    (hparen : (T j).kind ≠ .openParen) :
    ∃ k u links e', OperandAt T i k u ∧ LinksAt T k j links ∧ Grouped u links e' ∧
      e'.erase = e.erase ∧ ∀ l ∈ links, needed = false ∧ e.precedence ≤ l.1.level := by
  cases needed with
  | true =>
    obtain ⟨u, hu, he⟩ := (h.parenthesized hp).operandAt hparen
    exact ⟨j, u, [], u, hu, .nil, .operand u, he, by simp⟩
  | false =>
    have hfunction : e.kind = .function → (T j).bindingPower? = none := by
      intro hk
      have hpos := hneeded rfl
      rw [precedence_of_function hk] at hpos
      exact absurd hpos (Nat.lt_irrefl 0)
    obtain ⟨k, u, links, e', hu, hlinks, hgroup, he, hlevel⟩ :=
      h.chained hp hcolon hparen hfunction
    exact ⟨k, u, links, e', hu, hlinks, hgroup, he, fun l hl => ⟨rfl, hlevel l hl⟩⟩

theorem LinksAt.append {k : Nat} {links more : Links} (h : LinksAt T i k links)
    (hmore : LinksAt T k j more) : LinksAt T i j (links ++ more) := by
  induction links generalizing i with
  | nil =>
    cases h
    exact hmore
  | cons l links ih =>
    cases h with
    | cons hop hu hlinks => exact .cons hop hu (ih hlinks)

theorem binary?_lexeme {operation : Operation} (h : operation.isUnary = false) :
    Operation.binary? operation.lexeme = some operation := by
  have hread := Operation.ofLexeme?_lexeme operation
  simpa [h, Operation.ofLexeme?] using hread

theorem unary?_lexeme {operation : Operation} (h : operation.isUnary = true) :
    Operation.unary? operation.lexeme = some operation := by
  have hread := Operation.ofLexeme?_lexeme operation
  simpa [h, Operation.ofLexeme?] using hread

theorem kind_operation_lexeme (operation : Operation) :
    operation.lexeme.kind ≠ .doubleColon ∧ operation.lexeme.kind ≠ .openParen := by
  cases operation <;> decide

theorem level_pos {operation : Operation} (h : operation.isUnary = false) :
    0 < operation.level := by
  cases operation <;> first | decide | cases h

theorem level_le_of_leftNeeds {operation : Operation} {left : Expr}
    (h : Expr.leftNeeds operation left = false) :
    operation.level ≤ left.precedence ∧
      (operation.associativity = .right → operation.level < left.precedence) := by
  simp only [Expr.leftNeeds, Bool.or_eq_false_iff, decide_eq_false_iff_not, Nat.not_lt,
    Bool.and_eq_false_iff, beq_eq_false_iff_ne] at h
  obtain ⟨hle, hne⟩ := h
  refine ⟨hle, fun hr => Nat.lt_of_le_of_ne hle fun heq => ?_⟩
  exact hne.elim (fun h => h heq.symm) fun h => h hr

theorem level_le_of_rightNeeds {operation : Operation} {right : Expr}
    (h : Expr.rightNeeds operation right = false) :
    operation.level ≤ right.precedence ∧
      (operation.associativity = .left → operation.level < right.precedence) := by
  simp only [Expr.rightNeeds, Bool.or_eq_false_iff, decide_eq_false_iff_not, Nat.not_lt,
    Bool.and_eq_false_iff, beq_eq_false_iff_ne] at h
  obtain ⟨hle, hne⟩ := h
  refine ⟨hle, fun hl => Nat.lt_of_le_of_ne hle fun heq => ?_⟩
  exact hne.elim (fun h => h heq.symm) fun h => h hl

/-- The operators of a printed operand bind tight enough, because it would need parentheses else. -/
theorem Stands.binary {left right : Expr} {op : Operator} {span : TokenRange}
    (hop : op.operation.isUnary = false) (hleft : Stands T left) (hright : Stands T right) :
    Stands T (.binary left op right span) where
  called _ hprec _ _ := by
    have hlevel : op.operation.level = callPrecedence := hprec
    have hlt := op.operation.level_lt_prefixPrecedence
    rw [hlevel] at hlt
    exact absurd hlt (by decide)
  chained {i j} hp hcolon hparen _ := by
    simp only [exprPieces, List.append_assoc, List.cons_append, List.nil_append, piecesAt_append,
      piecesAt_space, piecesAt_lexeme] at hp
    obtain ⟨k, hpleft, hk, hpright⟩ := hp
    have hpos := level_pos hop
    have hkind := kind_operation_lexeme op.operation
    rw [← hk] at hkind
    obtain ⟨m, u, links, left', hu, hlinks, hgroup, hle, hlevels⟩ := hleft.operand hpleft
      (fun hb => Nat.lt_of_lt_of_le hpos (level_le_of_leftNeeds hb).1) hkind.1 hkind.2
    obtain ⟨n, v, more, right', hv, hmore, hgroup', hre, hlevels'⟩ := hright.operand hpright
      (fun hb => Nat.lt_of_lt_of_le hpos (level_le_of_rightNeeds hb).1) hcolon hparen
    have hbetween : Operation.binary? (T k) = some op.operation := by
      rw [hk]
      exact binary?_lexeme hop
    have hbefore : ∀ l ∈ links, op.operation.level ≤ l.1.level ∧
        (op.operation.associativity = .right → op.operation.level < l.1.level) := by
      intro l hl
      obtain ⟨hb, hle⟩ := hlevels l hl
      obtain ⟨h₁, h₂⟩ := level_le_of_leftNeeds hb
      exact ⟨Nat.le_trans h₁ hle, fun hr => Nat.lt_of_lt_of_le (h₂ hr) hle⟩
    have hafter : ∀ l ∈ more, op.operation.level ≤ l.1.level ∧
        (op.operation.associativity = .left → op.operation.level < l.1.level) := by
      intro l hl
      obtain ⟨hb, hle⟩ := hlevels' l hl
      obtain ⟨h₁, h₂⟩ := level_le_of_rightNeeds hb
      exact ⟨Nat.le_trans h₁ hle, fun hr => Nat.lt_of_lt_of_le (h₂ hr) hle⟩
    refine ⟨m, u, links ++ (⟨op.operation, .single k⟩, v) :: more, _, hu,
      hlinks.append (.cons hbetween hv hmore), .split hop ?_ ?_ ?_ hgroup hgroup', ?_, ?_⟩
    · intro l hl
      rcases List.mem_append.mp hl with hl | hl
      · exact (hbefore l hl).1
      · exact (hafter l hl).1
    · intro hassoc l hl
      exact (hafter l hl).2 hassoc
    · intro hassoc l hl
      exact (hbefore l hl).2 hassoc
    · simp [Expr.join, Expr.erase, Operator.erase, hle, hre]
    · intro l hl
      simp only [List.mem_append, List.mem_cons] at hl
      rcases hl with hl | rfl | hl
      · exact (hbefore l hl).1
      · exact Nat.le_refl _
      · exact (hafter l hl).1

theorem prefix_le_of_operandNeeds (h : Expr.operandNeeds e = false) :
    prefixPrecedence ≤ e.precedence := by
  simpa [Expr.operandNeeds] using h

theorem Stands.unary {op : Operator} {span : TokenRange} (hop : op.operation.isUnary = true)
    (he : Stands T e) : Stands T (.unary op e span) where
  called _ hprec _ _ :=
    absurd hprec (by simp [Expr.precedence, callPrecedence, prefixPrecedence])
  chained {i j} hp hcolon hparen _ := by
    simp only [exprPieces, piecesAt_lexeme] at hp
    obtain ⟨hi, hp⟩ := hp
    obtain ⟨k, u, links, e', hu, hlinks, hgroup, hee, hlevels⟩ := he.operand hp
      (fun hb => Nat.lt_of_lt_of_le (by decide) (prefix_le_of_operandNeeds hb)) hcolon hparen
    -- no operator binds as tight as what needs no parentheses here
    have hnil : links = [] := by
      refine List.eq_nil_iff_forall_not_mem.mpr fun l hl => ?_
      obtain ⟨hb, hle⟩ := hlevels l hl
      have hlevel : l.1.level < prefixPrecedence := l.1.operation.level_lt_prefixPrecedence
      exact absurd (Nat.le_trans (prefix_le_of_operandNeeds hb) hle) (Nat.not_le_of_lt hlevel)
    subst hnil
    cases hlinks
    obtain rfl := (Grouped.operand u).unique hgroup
    have hbefore : Operation.unary? (T i) = some op.operation := by
      rw [hi]
      exact unary?_lexeme hop
    refine chainedAt_of_operandAt (.before hbefore hu) ?_
    simp [Expr.erase, Operator.erase, hee]

theorem value_lexeme (kind : LiteralKind) (value : String) : (kind.lexeme value).value = value := by
  cases kind <;> rfl

theorem Stands.literal (l : Literal) : Stands T (.literal l) := by
  refine .of_called fun {i j} hp _ _ => ?_
  simp only [exprPieces, piecesAt_literal, piecesAt_nil] at hp
  obtain ⟨hi, rfl⟩ := hp
  have hkind : LiteralKind.ofLexeme? (T i) = some l.kind := by
    rw [hi, LiteralKind.ofLexeme?_lexeme]
  refine calledAt_of_primaryAt (.literal hkind) ?_
  rw [hi, value_lexeme]
  rfl

section

variable {L : Lexeme → Prop}

theorem Stands.ident {x : Ident} (hx : ProperName L x) : Stands T (.ident x) := by
  refine .of_called fun {i j} hp hcolon hparen => ?_
  simp only [exprPieces, piecesAt_ident, piecesAt_nil] at hp
  obtain ⟨hi, rfl⟩ := hp
  obtain ⟨x', hx', hxe⟩ := hx.nameAt hi
  exact calledAt_of_primaryAt (.ident hx' hcolon (hparen rfl)) (by simp [Expr.erase, hxe])

theorem Stands.path {p : Path} (hp : ProperPath L .expression p) : Stands T (.path p) := by
  refine .of_called fun {i j} hat hcolon _ => ?_
  obtain ⟨x, p', hx, hcolons, hpath, he⟩ := hp.qualifiedAt hat ⟨hcolon, by simp⟩
  exact calledAt_of_primaryAt (.path hx hcolons hpath) (by simp [Expr.erase, he])

end

theorem exprsAt_of_pieces {es : List Expr} (hes : ∀ e ∈ es, Stands T e)
    (h : PiecesAt T i j (commaSeparated (exprListPieces es)))
    (hclose : T j = .fixed .closeParen) :
    ∃ es', ExprsAt T i j es' ∧ eraseExprs es' = eraseExprs es := by
  induction es generalizing i with
  | nil =>
    obtain rfl : i = j := h
    exact ⟨[], .nil (kind_eq_of_fixed hclose), rfl⟩
  | cons e es ih =>
    rw [exprListPieces, piecesAt_commaSeparated_cons] at h
    obtain ⟨k, hp, hrest⟩ := h
    have he := hes e List.mem_cons_self
    rcases hrest with ⟨hnil, rfl⟩ | ⟨-, hcomma, hrest⟩
    · obtain ⟨e', he', hee⟩ := he.exprAt hp hclose (by decide)
      obtain rfl : es = [] := by
        cases es with
        | nil => rfl
        | cons => cases hnil
      exact ⟨[e'], .last he' (kind_eq_of_fixed hclose), by simp [eraseExprs, hee]⟩
    · obtain ⟨e', he', hee⟩ := he.exprAt hp hcomma (by decide)
      obtain ⟨es', hes', hese⟩ := ih (fun e he => hes e (List.mem_cons_of_mem _ he)) hrest
      exact ⟨e' :: es', .cons he' (kind_eq_of_fixed hcomma) hes', by simp [eraseExprs, hee, hese]⟩

theorem argumentsAt_of_pieces {args : List Expr} (hargs : ∀ e ∈ args, Stands T e)
    (h : PiecesAt T i j (Piece.parenthesized (commaSeparated (exprListPieces args)))) :
    ∃ args', ArgumentsAt T i j args' ∧ eraseExprs args' = eraseExprs args := by
  simp only [Piece.parenthesized, List.cons_append, piecesAt_fixed, piecesAt_append,
    piecesAt_nil] at h
  obtain ⟨hopen, k, hp, hclose, rfl⟩ := h
  obtain ⟨args', hargs', he⟩ := exprsAt_of_pieces hargs hp hclose
  exact ⟨args', .mk (kind_eq_of_fixed hopen) hargs', he⟩

theorem Stands.call {L : Lexeme → Prop} {x : Ident} {args : List Expr} {span : TokenRange}
    (hx : ProperName L x) (hargs : ∀ e ∈ args, Stands T e) : Stands T (.call x args span) := by
  refine .of_called fun {i j} hp _ _ => ?_
  simp only [exprPieces, piecesAt_ident] at hp
  obtain ⟨hi, hp⟩ := hp
  obtain ⟨x', hx', hxe⟩ := hx.nameAt hi
  obtain ⟨args', hargs', he⟩ := argumentsAt_of_pieces hargs hp
  exact calledAt_of_primaryAt (.call hx' hargs') (by simp [Expr.erase, hxe, he])

theorem precedence_le (e : Expr) : e.precedence ≤ callPrecedence := by
  cases e with
  | binary left op right span =>
    have hlevel := op.operation.level_lt_prefixPrecedence
    exact Nat.le_trans (Nat.le_of_lt hlevel) (by decide)
  | _ => simp [Expr.precedence, callPrecedence, prefixPrecedence]

/-- What is called stands before its calls, in parentheses if it is a name or binds too loose. -/
theorem Stands.callee (h : Stands T e)
    (hp : PiecesAt T i j (Piece.operand (Expr.calleeNeeds e) (exprPieces e)))
    (hcolon : (T j).kind ≠ .doubleColon) : CalledAt T i j e := by
  cases hneeds : Expr.calleeNeeds e with
  | true =>
    rw [hneeds] at hp
    exact h.parenthesized hp
  | false =>
    rw [hneeds] at hp
    simp only [Expr.calleeNeeds, Bool.or_eq_false_iff, decide_eq_false_iff_not, Nat.not_lt,
      beq_eq_false_iff_ne] at hneeds
    obtain ⟨hle, hident⟩ := hneeds
    exact h.called hp (Nat.le_antisymm (precedence_le e) hle) hcolon fun hk => absurd hk hident

theorem Stands.callValue {callee : Expr} {args : List Expr} {span : TokenRange}
    (hcallee : Stands T callee) (hargs : ∀ e ∈ args, Stands T e) :
    Stands T (.callValue callee args span) := by
  refine .of_called fun {i j} hp _ _ => ?_
  simp only [exprPieces, piecesAt_append] at hp
  obtain ⟨k, hpcallee, hpargs⟩ := hp
  obtain ⟨args', hargs', he⟩ := argumentsAt_of_pieces hargs hpargs
  have hcolon : (T k).kind ≠ .doubleColon := by
    rw [hargs'.openParen]
    decide
  obtain ⟨m, c, callee', hc, hce, hcalls⟩ := hcallee.callee hpcallee hcolon
  refine ⟨m, c, _, hc, ?_, fun j' e'' h => hcalls j' e'' (.call hargs' h)⟩
  simp [Expr.erase, hce, he]

theorem Stands.tuple {es : List Expr} {span : TokenRange} (hes : ∀ e ∈ es, Stands T e) :
    Stands T (.tuple es span) := by
  refine .of_called fun {i j} hp _ _ => ?_
  cases es with
  | nil =>
    simp only [exprPieces, exprListPieces, Expr.tuplePieces, Piece.parenthesized, commaSeparated,
      List.intercalate_nil, List.cons_append, List.nil_append, piecesAt_fixed, piecesAt_nil] at hp
    obtain ⟨hopen, hclose, rfl⟩ := hp
    exact calledAt_of_primaryAt (.unit (kind_eq_of_fixed hopen) (kind_eq_of_fixed hclose)) rfl
  | cons e es =>
    have he := hes e List.mem_cons_self
    have hrest : ∀ e ∈ es, Stands T e := fun e he => hes e (List.mem_cons_of_mem _ he)
    -- a lone element has a comma behind it, and else each element but the last has one
    have hsplit : ∃ k m, T i = .fixed .openParen ∧ PiecesAt T (i + 1) k (exprPieces e) ∧
        T k = .fixed .comma ∧ PiecesAt T (k + 1) m (commaSeparated (exprListPieces es)) ∧
        T m = .fixed .closeParen ∧ m + 1 = j := by
      cases es with
      | nil =>
        simp only [exprPieces, exprListPieces, Expr.tuplePieces, Piece.parenthesized,
          List.cons_append, List.append_assoc, List.nil_append, piecesAt_fixed, piecesAt_append,
          piecesAt_nil] at hp
        obtain ⟨hopen, k, hp, hcomma, hclose, hj⟩ := hp
        exact ⟨k, k + 1, hopen, hp, hcomma, rfl, hclose, hj⟩
      | cons e' es =>
        simp only [exprPieces, exprListPieces, Expr.tuplePieces, Piece.parenthesized,
          List.cons_append, piecesAt_fixed, piecesAt_append, piecesAt_nil,
          piecesAt_commaSeparated_cons (p := exprPieces e)] at hp
        obtain ⟨hopen, m, ⟨k, hp, hmore⟩, hclose, hj⟩ := hp
        obtain ⟨-, hcomma, hmore⟩ := hmore.resolve_left (by simp)
        exact ⟨k, m, hopen, hp, hcomma, hmore, hclose, hj⟩
    obtain ⟨k, m, hopen, hfirst, hcomma, hmore, hclose, rfl⟩ := hsplit
    obtain ⟨e', he', hee⟩ := he.exprAt hfirst hcomma (by decide)
    obtain ⟨es', hes', hese⟩ := exprsAt_of_pieces hrest hmore hclose
    refine calledAt_of_primaryAt
      (.tuple (kind_eq_of_fixed hopen) he' (kind_eq_of_fixed hcomma) hes') ?_
    simp [Expr.erase, eraseExprs, hee, hese]

/-- The grammar finds the block where it is printed. -/
def BlockStands (T : Nat → Lexeme) (b : Block) : Prop :=
  ∀ i j, PiecesAt T i j (blockPieces b) → ∃ b', BlockAt T i j b' ∧ b'.erase = b.erase

theorem Stands.block {b : Block} (hb : BlockStands T b) : Stands T (.block b) := by
  refine .of_called fun {i j} hp _ _ => ?_
  obtain ⟨b', hb', he⟩ := hb i j hp
  exact calledAt_of_primaryAt (.block hb') (by simp [Expr.erase, he])

section

variable {L : Lexeme → Prop} {name : Option Ident} {params : List Ident} {span : TokenRange}

/-- A function ends where its body does, and so takes every operator behind it. -/
theorem Stands.compute {body : Expr} (hname : ∀ x ∈ name, ProperName L x)
    (hparams : ∀ x ∈ params, ProperName L x) (hbody : Stands T body) :
    Stands T (.function .compute name params body span) where
  called _ hprec _ _ := absurd hprec (by simp [Expr.precedence, callPrecedence])
  chained {i j} hp hcolon hparen hpower := by
    simp only [exprPieces, piecesAt_append] at hp
    obtain ⟨k, hheader, hp⟩ := hp
    obtain ⟨name', params', hheader', hne, hpe⟩ := signatureAt_of_pieces hname hparams hheader
    obtain ⟨body', hbody', he⟩ :=
      (hbody.chained hp hcolon hparen fun _ => hpower rfl).exprAt (hpower rfl)
    refine chainedAt_of_operandAt (.called (.compute hheader' hbody') (.done hparen)) ?_
    simp [Expr.erase, hne, hpe, he]

theorem tail_eq_none_of_erase {b b' : Block} (h : b'.erase = b.erase) (hb : b.tail = none) :
    b'.tail = none := by
  obtain ⟨stmts, tail, span⟩ := b
  obtain ⟨stmts', tail', span'⟩ := b'
  obtain rfl : tail = none := hb
  simp only [Block.erase, Block.mk.injEq, eraseTail] at h
  cases tail' with
  | none => rfl
  | some value => cases h.2.1

theorem Stands.action {body : Block} (hname : ∀ x ∈ name, ProperName L x)
    (hparams : ∀ x ∈ params, ProperName L x) (hbody : BlockStands T body)
    (htail : body.tail = none) : Stands T (.function .action name params (.block body) span) where
  called _ hprec _ _ := absurd hprec (by simp [Expr.precedence, callPrecedence])
  chained {i j} hp hcolon hparen hpower := by
    simp only [exprPieces, piecesAt_append] at hp
    obtain ⟨k, hheader, hp⟩ := hp
    obtain ⟨name', params', hheader', hne, hpe⟩ := signatureAt_of_pieces hname hparams hheader
    obtain ⟨body', hbody', he⟩ := hbody k j hp
    refine chainedAt_of_operandAt
      (.called (.action hheader' hbody' (tail_eq_none_of_erase he htail)) (.done hparen)) ?_
    simp [Expr.erase, hne, hpe, he]

end

end FrontEnd.Grammar
