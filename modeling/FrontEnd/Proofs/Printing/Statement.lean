import FrontEnd.Proofs.Printing.Expression

/-! Printed statements, blocks and programs. What decides between a statement and the value of a
block is the first lexeme: it is a keyword only if the expression is a function, and a function is
taken for a declaration only if it has a name and a body that opens with a brace. -/
namespace FrontEnd

namespace Expr

/-- A function with a name reads like a declaration. -/
def isNamedFunction : Expr → Bool
  | .function _ name _ _ _ => name.isSome
  | _ => false

/-- A function with a name is printed like a declaration if a brace follows its header. -/
def printsAsDeclaration : Expr → Bool
  | .function _ (some _) _ body _ =>
    (Tree.exprPieces body).head? == some (Piece.fixed .openCurly)
  | _ => false

theorem printsAsDeclaration_of_unnamed {e : Expr} (h : e.isNamedFunction = false) :
    e.printsAsDeclaration = false := by
  cases e with
  | function kind name params body span =>
    cases name with
    | none => rfl
    | some x => cases h
  | _ => rfl

theorem canStandAlone_erase (e : Expr) : e.erase.canStandAlone = e.canStandAlone := by
  cases e <;> simp [erase, canStandAlone]

end Expr

namespace Stmt

theorem allowedInBlock_erase (s : Stmt) : s.erase.allowedInBlock = s.allowedInBlock := by
  cases s <;> simp [erase, allowedInBlock, Expr.canStandAlone_erase]

end Stmt

namespace Grammar

open Piece FrontEnd.Tree

section

variable (L : Lexeme → Prop)

/-- The lexemes that expressions open with, other than functions. -/
def Opens (l : Lexeme) : Prop :=
  (L l ∧ l.keyword? = none ∧
    l.kind ∈ [TokenKind.word, .string, .rawString, .character, .integer, .float]) ∨
  l ∈ [Lexeme.fixed .openParen, .fixed .openCurly, .fixed .dash, .fixed .plus,
    .fixed .exclamation]

/-- The pieces start with a lexeme that expressions open with. -/
def PiecesOpen (ps : List Piece) : Prop :=
  ∃ l rest, ps = .lexeme l :: rest ∧ Opens L l

end

variable {L : Lexeme → Prop} {N : Expr → Prop} {T : Nat → Lexeme} {i j : Nat}
  {ps qs : List Piece} {e : Expr}

theorem Opens.keyword?_eq_none {l : Lexeme} (h : Opens L l) : l.keyword? = none := by
  rcases h with ⟨-, hkey, -⟩ | hl
  · exact hkey
  · simp only [List.mem_cons, List.not_mem_nil, or_false] at hl
    rcases hl with rfl | rfl | rfl | rfl | rfl <;> rfl

theorem PiecesOpen.append (h : PiecesOpen L ps) : PiecesOpen L (ps ++ qs) := by
  obtain ⟨l, rest, rfl, hl⟩ := h
  exact ⟨l, rest ++ qs, rfl, hl⟩

theorem PiecesOpen.keyword?_eq_none (h : PiecesOpen L ps) (hp : PiecesAt T i j ps) :
    (T i).keyword? = none := by
  obtain ⟨l, rest, rfl, hl⟩ := h
  rw [piecesAt_lexeme] at hp
  rw [hp.1]
  exact hl.keyword?_eq_none

theorem piecesOpen_parenthesized : PiecesOpen L (Piece.parenthesized ps) :=
  ⟨.fixed .openParen, _, rfl, .inr (by simp)⟩

theorem piecesOpen_operand {needed : Bool} (h : needed = false → PiecesOpen L ps) :
    PiecesOpen L (Piece.operand needed ps) := by
  cases needed with
  | true => exact piecesOpen_parenthesized
  | false => exact h rfl

theorem ProperName.piecesOpen {x : Ident} (hx : ProperName L x) :
    PiecesOpen L (x.piece :: ps) :=
  ⟨.word x.name, ps, rfl, .inl ⟨hx.written, hx.ofText?, by simp [Lexeme.word]⟩⟩

theorem kind_ne_function_of_precedence (h : 0 < e.precedence) : e.kind ≠ .function := by
  intro hk
  rw [precedence_of_function hk] at h
  exact absurd h (Nat.lt_irrefl 0)

theorem piecesOpen_block (b : Block) : PiecesOpen L (blockPieces b) := by
  obtain ⟨stmts, tail, span⟩ := b
  rw [blockPieces]
  cases stmtListPieces stmts ++ tailPieces tail with
  | nil => exact ⟨.fixed .openCurly, _, rfl, .inr (by simp)⟩
  | cons item items => exact ⟨.fixed .openCurly, _, rfl, .inr (by simp)⟩

theorem lexeme_mem_of_isUnary {operation : Operation} (h : operation.isUnary = true) :
    operation.lexeme ∈ [Lexeme.fixed .openParen, .fixed .openCurly, .fixed .dash, .fixed .plus,
      .fixed .exclamation] := by
  cases operation <;> first | decide | exact absurd h (by decide)

theorem ProperExpr.piecesOpen {e : Expr} (he : ProperExpr L N e) (hk : e.kind ≠ .function) :
    PiecesOpen L (exprPieces e) := by
  match he with
  | .literal (l := l) hl =>
    refine ⟨l.kind.lexeme l.value, [], rfl, .inl ⟨hl, ?_, ?_⟩⟩
    · cases l.kind <;> rfl
    · cases l.kind <;> simp [LiteralKind.lexeme]
  | .ident hx => exact hx.piecesOpen
  | .binary hop hleft _ =>
    rw [exprPieces, List.append_assoc]
    refine (piecesOpen_operand fun hb => hleft.piecesOpen ?_).append
    exact kind_ne_function_of_precedence
      (Nat.lt_of_lt_of_le (level_pos hop) (level_le_of_leftNeeds hb).1)
  | .unary hop _ => exact ⟨_, _, rfl, .inr (lexeme_mem_of_isUnary hop)⟩
  | .block _ => exact piecesOpen_block _
  | .compute _ _ _ => exact absurd rfl hk
  | .action _ _ _ _ => exact absurd rfl hk
  | .call hx _ => exact hx.piecesOpen
  | .callValue hcallee _ =>
    rw [exprPieces]
    refine (piecesOpen_operand fun hb => hcallee.piecesOpen ?_).append
    simp only [Expr.calleeNeeds, Bool.or_eq_false_iff, decide_eq_false_iff_not, Nat.not_lt] at hb
    exact kind_ne_function_of_precedence (Nat.lt_of_lt_of_le (by decide) hb.1)
  | .tuple _ =>
    rw [exprPieces]
    unfold Expr.tuplePieces
    split <;> exact piecesOpen_parenthesized
  | .path hp =>
    match hp with
    | .mk hsegment _ _ =>
      rw [exprPieces, Path.pieces, List.cons_append]
      exact hsegment.piecesOpen

/-- The grammar finds the statement where it is printed. -/
def StmtStands (T : Nat → Lexeme) (s : Stmt) : Prop :=
  ∀ i j, PiecesAt T i j (stmtPieces s) → ∃ s', StmtAt T i j s' ∧ s'.erase = s.erase

section

variable {span : TokenRange}

theorem stmtStands_expr (halone : e.canStandAlone = true) (he : ProperExpr L N e)
    (hstands : Stands T e) : StmtStands T (.expr e span) := by
  intro i j hp
  simp only [stmtPieces, piecesAt_append, piecesAt_fixed, piecesAt_nil] at hp
  obtain ⟨k, hp, hsemi, rfl⟩ := hp
  have hkind : e.kind ≠ .function := by
    cases e <;> simp_all [Expr.kind, Expr.canStandAlone]
  obtain ⟨e', he', hee⟩ := hstands.exprAt hp hsemi (by decide)
  have halone' : e'.canStandAlone = true := by
    rw [← Expr.canStandAlone_erase, hee, Expr.canStandAlone_erase, halone]
  exact ⟨_, .expr ((he.piecesOpen hkind).keyword?_eq_none hp) he' (kind_eq_of_fixed hsemi)
    halone', by simp [Stmt.erase, hee]⟩

theorem stmtStands_binding {mutable : Bool} {x : Ident} {value : Expr} (hx : ProperName L x)
    (hvalue : Stands T value) : StmtStands T (.binding mutable x value span) := by
  intro i j hp
  cases mutable with
  | false =>
    simp only [stmtPieces, Bool.false_eq_true, if_false, List.cons_append, List.nil_append,
      piecesAt_word, piecesAt_space, piecesAt_ident, piecesAt_fixed, piecesAt_append,
      piecesAt_nil] at hp
    obtain ⟨hlet, hname, hassign, k, hp, hsemi, rfl⟩ := hp
    obtain ⟨x', hx', hxe⟩ := hx.nameAt hname
    obtain ⟨value', hvalue', he⟩ := hvalue.exprAt hp hsemi (by decide)
    have hno : false = (T (i + 1)).isKeyword .varKey := by
      rw [Lexeme.isKeyword, hx'.2.1]
      rfl
    exact ⟨_, .binding (keyword?_of_word hlet) hno rfl hx' (kind_eq_of_fixed hassign) hvalue'
      (kind_eq_of_fixed hsemi), by simp [Stmt.erase, hxe, he]⟩
  | true =>
    simp only [stmtPieces, if_true, List.cons_append, List.nil_append, piecesAt_word,
      piecesAt_space, piecesAt_ident, piecesAt_fixed, piecesAt_append, piecesAt_nil] at hp
    obtain ⟨hlet, hvar, hname, hassign, k, hp, hsemi, rfl⟩ := hp
    obtain ⟨x', hx', hxe⟩ := hx.nameAt hname
    obtain ⟨value', hvalue', he⟩ := hvalue.exprAt hp hsemi (by decide)
    have hyes : true = (T (i + 1)).isKeyword .varKey := by
      rw [Lexeme.isKeyword, keyword?_of_word hvar]
      rfl
    exact ⟨_, .binding (keyword?_of_word hlet) hyes rfl hx' (kind_eq_of_fixed hassign) hvalue'
      (kind_eq_of_fixed hsemi), by simp [Stmt.erase, hxe, he]⟩

theorem stmtStands_function {kind : FunctionKind} {x : Ident} {params : List Ident} {body : Block}
    (hx : ProperName L x) (hparams : ∀ y ∈ params, ProperName L y) (hbody : BlockStands T body)
    (htail : kind = .action → body.tail = none) :
    StmtStands T (.function kind x params body span) := by
  intro i j hp
  simp only [stmtPieces, piecesAt_append] at hp
  obtain ⟨k, hheader, hp⟩ := hp
  have hname : ∀ y ∈ some x, ProperName L y := by
    rintro _ ⟨⟩
    exact hx
  obtain ⟨name', params', hheader', hne, hpe⟩ := signatureAt_of_pieces hname hparams hheader
  obtain ⟨body', hbody', he⟩ := hbody k j hp
  cases name' with
  | none => cases hne
  | some x' =>
    simp only [Option.map_some, Option.some.injEq] at hne
    exact ⟨_, .function hheader' hbody' fun hk => tail_eq_none_of_erase he (htail hk),
      by simp [Stmt.erase, hne, hpe, he]⟩

theorem stmtStands_returning {value : Expr} (hvalue : Stands T value) :
    StmtStands T (.returning value span) := by
  intro i j hp
  simp only [stmtPieces, List.cons_append, piecesAt_word, piecesAt_space, piecesAt_append,
    piecesAt_fixed, piecesAt_nil] at hp
  obtain ⟨hkey, k, hp, hsemi, rfl⟩ := hp
  obtain ⟨value', hvalue', he⟩ := hvalue.exprAt hp hsemi (by decide)
  exact ⟨_, .returning (keyword?_of_word hkey) hvalue' (kind_eq_of_fixed hsemi),
    by simp [Stmt.erase, he]⟩

theorem stmtStands_importResource {l : Literal} {x : Ident} (hkind : l.kind = .string)
    (hx : ProperName L x) : StmtStands T (.importResource l x span) := by
  intro i j hp
  simp only [stmtPieces, piecesAt_word, piecesAt_space, piecesAt_literal, piecesAt_ident,
    piecesAt_fixed, piecesAt_nil] at hp
  obtain ⟨himport, hext, hl, has, hname, hsemi, rfl⟩ := hp
  obtain ⟨x', hx', hxe⟩ := hx.nameAt hname
  have hstring : (T (i + 2)).kind = .string := by
    rw [hl, hkind]
    rfl
  refine ⟨_, .importResource (keyword?_of_word himport) (keyword?_of_word hext) hstring
    (keyword?_of_word has) hx' (kind_eq_of_fixed hsemi), ?_⟩
  obtain ⟨kind, value, span⟩ := l
  obtain rfl : kind = .string := hkind
  have hvalue : (T (i + 2)).value = value := by
    rw [hl]
    rfl
  simp [Stmt.erase, Literal.erase, hxe, hvalue]

theorem stmtStands_importPath {p : Path} (hp : ProperPath L .importing p) :
    StmtStands T (.importPath p span) := by
  intro i j h
  simp only [stmtPieces, List.cons_append, piecesAt_word, piecesAt_space, piecesAt_append,
    piecesAt_fixed, piecesAt_nil] at h
  obtain ⟨hkey, k, h, hsemi, rfl⟩ := h
  obtain ⟨x, p', hx, hcolons, hpath, he⟩ :=
    hp.qualifiedAt h (pathEnds_of_fixed hsemi (by decide) (by decide))
  exact ⟨_, .importPath (keyword?_of_word hkey) hx hcolons hpath (kind_eq_of_fixed hsemi),
    by simp [Stmt.erase, he]⟩

end

/-- Where no brace is printed first, none stands. -/
theorem ProperExpr.kind_ne_openCurly (he : ProperExpr L N e)
    (hp : PiecesAt T i j (exprPieces e)) (hhead : (exprPieces e).head? ≠ some (fixed .openCurly)) :
    (T i).kind ≠ .openCurly := by
  by_cases hk : e.kind = .function
  · cases e <;> cases hk
    simp only [exprPieces, Expr.headerPieces, List.cons_append, piecesAt_word] at hp
    rw [hp.1]
    show TokenKind.word ≠ .openCurly
    decide
  · obtain ⟨l, rest, hpieces, hl⟩ := he.piecesOpen hk
    rw [hpieces, piecesAt_lexeme] at hp
    rw [hpieces] at hhead
    rw [hp.1]
    rintro hkind
    rcases hl with ⟨-, -, hmem⟩ | hmem
    · rw [hkind] at hmem
      exact absurd hmem (by decide)
    · simp only [List.mem_cons, List.not_mem_nil, or_false] at hmem
      rcases hmem with rfl | rfl | rfl | rfl | rfl
      · cases hkind
      · exact hhead rfl
      · cases hkind
      · cases hkind
      · cases hkind

/-- Before a body that does not open with a brace a header declares nothing. -/
theorem not_declaresAt_of_signatureAt {k : Nat} {kind : FunctionKind} {name : Option Ident}
    {params : List Ident} (h : SignatureAt T i k kind name params)
    (hbody : (T k).kind ≠ .openCurly) : ¬ DeclaresAt T i := by
  rintro ⟨k', kind', name', params', h', hopen⟩
  rw [h'.stop_unique h] at hopen
  exact hbody hopen

/-- The value of a block is not taken for a statement. -/
theorem itemsAt_tail (he : ProperExpr L N e) (hdeclares : e.printsAsDeclaration = false)
    (hstands : Stands T e) (hp : PiecesAt T i j (exprPieces e))
    (hclose : T j = .fixed .closeCurly) :
    ∃ e', ItemsAt T i j [] (some e') ∧ e'.erase = e.erase := by
  obtain ⟨e', he', hee⟩ := hstands.exprAt hp hclose (by decide)
  by_cases hk : e.kind = .function
  · cases e <;> cases hk
    rename_i kind name params body span
    rw [exprPieces, piecesAt_append] at hp
    obtain ⟨k, hheader, hbody⟩ := hp
    obtain ⟨hname, hparams, hproper⟩ : (∀ x ∈ name, ProperName L x) ∧
        (∀ x ∈ params, ProperName L x) ∧ ProperExpr L N body := by
      cases he with
      | compute hname hparams hproper => exact ⟨hname, hparams, hproper⟩
      | action hname hparams hproper _ => exact ⟨hname, hparams, .block hproper⟩
    obtain ⟨_, _, hsignature, -, -⟩ := signatureAt_of_pieces hname hparams hheader
    have hn : ¬ DeclaresAt T i := by
      cases name with
      | none => exact not_declaresAt_of_pieces hheader
      | some x =>
        refine not_declaresAt_of_signatureAt hsignature (hproper.kind_ne_openCurly hbody ?_)
        simpa [Expr.printsAsDeclaration] using hdeclares
    exact ⟨e', .functionTail hsignature.functionKind? hn he' (kind_eq_of_fixed hclose), hee⟩
  · have hkey := (he.piecesOpen hk).keyword?_eq_none hp
    exact ⟨e', .tail hkey he' (kind_eq_of_fixed hclose), hee⟩

theorem itemsAt_of_pieces {stmts : List Stmt} {tail : Option Expr}
    (hstmts : ∀ s ∈ stmts, StmtStands T s) (hallowed : ∀ s ∈ stmts, s.allowedInBlock = true)
    (htail : ∀ value ∈ tail, ∀ {i j : Nat}, PiecesAt T i j (exprPieces value) →
      T j = .fixed .closeCurly → ∃ value', ItemsAt T i j [] (some value') ∧
        value'.erase = value.erase)
    (h : PiecesAt T i j (stmtListPieces stmts ++ tailPieces tail).flatten)
    (hclose : T j = .fixed .closeCurly) :
    ∃ stmts' tail', ItemsAt T i j stmts' tail' ∧ eraseStmts stmts' = eraseStmts stmts ∧
      eraseTail tail' = eraseTail tail := by
  induction stmts generalizing i with
  | nil =>
    cases tail with
    | none =>
      obtain rfl : i = j := h
      exact ⟨[], none, .nil (kind_eq_of_fixed hclose), rfl, rfl⟩
    | some value =>
      simp only [stmtListPieces, tailPieces, List.nil_append, List.flatten_cons, List.flatten_nil,
        List.append_nil] at h
      obtain ⟨value', hvalue', he⟩ := htail value rfl h hclose
      exact ⟨[], some value', hvalue', rfl, by simp [eraseTail, he]⟩
  | cons s stmts ih =>
    rw [stmtListPieces, List.cons_append, List.flatten_cons, piecesAt_append] at h
    obtain ⟨k, hs, hrest⟩ := h
    obtain ⟨s', hs', he⟩ := hstmts s List.mem_cons_self i k hs
    obtain ⟨stmts', tail', hitems, hse, hte⟩ :=
      ih (fun s hs => hstmts s (List.mem_cons_of_mem _ hs))
        (fun s hs => hallowed s (List.mem_cons_of_mem _ hs)) hrest
    have hallowed' : s'.allowedInBlock = true := by
      rw [← Stmt.allowedInBlock_erase, he, Stmt.allowedInBlock_erase]
      exact hallowed s List.mem_cons_self
    exact ⟨s' :: stmts', tail', .stmt hs' hallowed' hitems, by simp [eraseStmts, he, hse], hte⟩

theorem piecesAt_bracePieces {items : List (List Piece)}
    (h : PiecesAt T i j (Block.bracePieces items)) :
    T i = .fixed .openCurly ∧ ∃ k, PiecesAt T (i + 1) k items.flatten ∧
      T k = .fixed .closeCurly ∧ k + 1 = j := by
  cases items with
  | nil =>
    simp only [Block.bracePieces, piecesAt_fixed, piecesAt_nil] at h
    exact ⟨h.1, i + 1, rfl, h.2⟩
  | cons item items =>
    simp only [Block.bracePieces, List.cons_append, piecesAt_fixed, piecesAt_space,
      piecesAt_append, piecesAt_nil] at h
    obtain ⟨hopen, k, hitems, hclose, hj⟩ := h
    exact ⟨hopen, k, piecesAt_intercalate_blank.mp hitems, hclose, hj⟩

theorem blockStands_of_items {stmts : List Stmt} {tail : Option Expr} {span : TokenRange}
    (hstmts : ∀ s ∈ stmts, StmtStands T s) (hallowed : ∀ s ∈ stmts, s.allowedInBlock = true)
    (htail : ∀ value ∈ tail, ∀ {i j : Nat}, PiecesAt T i j (exprPieces value) →
      T j = .fixed .closeCurly → ∃ value', ItemsAt T i j [] (some value') ∧
        value'.erase = value.erase) : BlockStands T ⟨stmts, tail, span⟩ := by
  intro i j hp
  rw [blockPieces] at hp
  obtain ⟨hopen, k, hitems, hclose, rfl⟩ := piecesAt_bracePieces hp
  obtain ⟨stmts', tail', hitems', hse, hte⟩ :=
    itemsAt_of_pieces hstmts hallowed htail hitems hclose
  exact ⟨_, .mk (kind_eq_of_fixed hopen) hitems' (kind_eq_of_fixed hclose),
    by simp [Block.erase, hse, hte]⟩

mutual

/-- Every proper tree stands where it is printed, if no value of a block is printed like a
declaration. -/
theorem ProperExpr.stands (hN : ∀ e, N e → e.printsAsDeclaration = false) {e : Expr}
    (h : ProperExpr L N e) : Stands T e := by
  match h with
  | .literal _ => exact .literal _
  | .ident hx => exact .ident hx
  | .binary hop hleft hright => exact .binary hop (hleft.stands hN) (hright.stands hN)
  | .unary hop he => exact .unary hop (he.stands hN)
  | .block hb => exact .block (hb.stands hN)
  | .compute hname hparams hbody => exact .compute hname hparams (hbody.stands hN)
  | .action hname hparams hbody htail => exact .action hname hparams (hbody.stands hN) htail
  | .call hx hargs => exact .call hx fun e he => (hargs e he).stands hN
  | .callValue hcallee hargs =>
    exact .callValue (hcallee.stands hN) fun e he => (hargs e he).stands hN
  | .tuple hes => exact .tuple fun e he => (hes e he).stands hN
  | .path hp => exact .path hp

theorem ProperBlock.stands (hN : ∀ e, N e → e.printsAsDeclaration = false) {b : Block}
    (h : ProperBlock L N b) : BlockStands T b := by
  match h with
  | .mk hstmts hallowed htail hfit =>
    exact blockStands_of_items (fun s hs => (hstmts s hs).stands hN) hallowed
      fun value hvalue => itemsAt_tail (htail value hvalue) (hN value (hfit value hvalue))
        ((htail value hvalue).stands hN)

theorem ProperStmt.stands (hN : ∀ e, N e → e.printsAsDeclaration = false) {s : Stmt}
    (h : ProperStmt L N s) : StmtStands T s := by
  match h with
  | .expr halone he => exact stmtStands_expr halone he (he.stands hN)
  | .binding hx hvalue => exact stmtStands_binding hx (hvalue.stands hN)
  | .function hx hparams hbody htail => exact stmtStands_function hx hparams (hbody.stands hN) htail
  | .returning hvalue => exact stmtStands_returning (hvalue.stands hN)
  | .importResource hkind _ hx => exact stmtStands_importResource hkind hx
  | .importPath hp => exact stmtStands_importPath hp

end

/-- Where a printed program stands, with the end mark behind it, the grammar finds the program. -/
theorem programAt_of_proper (hN : ∀ e, N e → e.printsAsDeclaration = false) {stmts : List Stmt}
    (hstmts : ∀ s ∈ stmts, ProperStmt L N s)
    (h : PiecesAt T i j (stmtListPieces stmts).flatten) (hend : (T j).kind = .endMark) :
    ∃ stmts', ProgramAt T i j stmts' ∧ eraseStmts stmts' = eraseStmts stmts := by
  induction stmts generalizing i with
  | nil =>
    obtain rfl : i = j := h
    exact ⟨[], .nil hend, rfl⟩
  | cons s stmts ih =>
    rw [stmtListPieces, List.flatten_cons, piecesAt_append] at h
    obtain ⟨k, hs, hrest⟩ := h
    obtain ⟨s', hs', he⟩ := (hstmts s List.mem_cons_self).stands hN i k hs
    obtain ⟨stmts', hstmts', hse⟩ :=
      ih (fun s hs => hstmts s (List.mem_cons_of_mem _ hs)) hrest
    exact ⟨s' :: stmts', .cons hs' hstmts', by simp [eraseStmts, he, hse]⟩

theorem programAt_of_pieces {stmts : List Stmt}
    (hstmts : ∀ s ∈ stmts, ProperStmt L (·.isNamedFunction = false) s)
    (h : PiecesAt T i j (stmtListPieces stmts).flatten) (hend : (T j).kind = .endMark) :
    ∃ stmts', ProgramAt T i j stmts' ∧ eraseStmts stmts' = eraseStmts stmts :=
  programAt_of_proper (fun _ => Expr.printsAsDeclaration_of_unnamed) hstmts h hend

end Grammar

end FrontEnd
