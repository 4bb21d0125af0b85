import FrontEnd.Proofs.RoundTrip

/-! Functions with a name that are the values of blocks. The parentheses that kept one from being
read as a declaration are not in the tree, and the printer sets none in their place. If its body is
a block, what is printed is a declaration: it is read again as the last statement of a block that
has no value. If the body only opens with a brace, the declaration ends before the body does, and
the rest is torn off. All other values of blocks come back as they were. -/
namespace FrontEnd

namespace Expr

/-- A function with a name and a block for its body. -/
def isRedeclared : Expr → Bool
  | .function _ (some _) _ (.block _) _ => true
  | _ => false

/-- The body of a function with a name opens with a brace and goes on behind the closing one. -/
def isTorn (e : Expr) : Bool :=
  e.printsAsDeclaration && !e.isRedeclared

theorem printsAsDeclaration_eq_false {e : Expr} (htorn : e.isTorn = false)
    (hredeclared : e.isRedeclared = false) : e.printsAsDeclaration = false := by
  simpa [isTorn, hredeclared] using htorn

end Expr

namespace Block

/-- The block whose value, if it would be a declaration among the statements, is the last one. -/
def settled : Block → Block
  | ⟨stmts, some (.function kind (some name) params (.block body) fnSpan), span⟩ =>
    ⟨stmts ++ [.function kind name params body fnSpan], none, span⟩
  | block => block

/-- A block is settled already, or its value is a declaration and moves. -/
theorem settled_cases (b : Block) :
    (b.settled = b ∧ ∀ value ∈ b.tail, value.isRedeclared = false) ∨
      ∃ kind name params body fnSpan,
        b.tail = some (.function kind (some name) params (.block body) fnSpan) ∧
          b.settled = ⟨b.stmts ++ [.function kind name params body fnSpan], none, b.span⟩ := by
  obtain ⟨stmts, tail, span⟩ := b
  cases tail with
  | none => exact .inl ⟨rfl, by simp⟩
  | some value =>
    by_cases hvalue : value.isRedeclared = true
    · cases value with
      | function kind name params body fnSpan =>
        cases name with
        | none => cases hvalue
        | some name =>
          cases body with
          | block body => exact .inr ⟨kind, name, params, body, fnSpan, rfl, rfl⟩
          | _ => cases hvalue
      | _ => cases hvalue
    · refine .inl ⟨?_, by simpa using hvalue⟩
      -- no other shape is moved
      unfold settled
      split
      · rename_i hshape
        cases hshape
        exact absurd rfl hvalue
      · rfl

theorem tail_settled {b : Block} (h : b.tail = none) : b.settled.tail = none := by
  rcases b.settled_cases with ⟨hkept, -⟩ | ⟨_, _, _, _, _, -, hmoved⟩
  · rw [hkept, h]
  · rw [hmoved]

end Block

/-! ## The tree that the printed text says -/

mutual

/-- The expression with every block in it settled. -/
def Expr.reread : Expr → Expr
  | .literal l => .literal l
  | .ident x => .ident x
  | .binary left op right span => .binary left.reread op right.reread span
  | .unary op e span => .unary op e.reread span
  | .block b => .block b.reread
  | .function kind name params body span => .function kind name params body.reread span
  | .call callee args span => .call callee (Tree.rereadExprs args) span
  | .callValue callee args span => .callValue callee.reread (Tree.rereadExprs args) span
  | .tuple elements span => .tuple (Tree.rereadExprs elements) span
  | .path p => .path p

def Tree.rereadExprs : List Expr → List Expr
  | [] => []
  | e :: es => e.reread :: Tree.rereadExprs es

/-- The blocks within are settled first. -/
def Block.reread : Block → Block
  | ⟨stmts, tail, span⟩ => Block.settled ⟨Tree.rereadStmts stmts, Tree.rereadTail tail, span⟩

def Tree.rereadTail : Option Expr → Option Expr
  | none => none
  | some value => some value.reread

def Tree.rereadStmts : List Stmt → List Stmt
  | [] => []
  | s :: ss => s.reread :: Tree.rereadStmts ss

def Stmt.reread : Stmt → Stmt
  | .expr e span => .expr e.reread span
  | .binding mutable name value span => .binding mutable name value.reread span
  | .function kind name params body span => .function kind name params body.reread span
  | .returning value span => .returning value.reread span
  | .importResource resource localName span => .importResource resource localName span
  | .importPath p span => .importPath p span

end

namespace Program

/-- The program with every block in it settled. -/
def reread (program : Program) : Program :=
  { program with body := Tree.rereadStmts program.body }

end Program

namespace Expr

@[simp] theorem kind_reread (e : Expr) : e.reread.kind = e.kind := by
  cases e <;> simp [reread, kind]

@[simp] theorem precedence_reread (e : Expr) : e.reread.precedence = e.precedence := by
  cases e <;> simp [reread, precedence]

@[simp] theorem canStandAlone_reread (e : Expr) : e.reread.canStandAlone = e.canStandAlone := by
  cases e <;> simp [reread, canStandAlone]

@[simp] theorem isRedeclared_reread (e : Expr) : e.reread.isRedeclared = e.isRedeclared := by
  cases e with
  | function kind name params body span =>
    cases name with
    | none => rfl
    | some x => cases body <;> rfl
  | _ => rfl

end Expr

@[simp] theorem Stmt.allowedInBlock_reread (s : Stmt) :
    s.reread.allowedInBlock = s.allowedInBlock := by
  cases s <;> simp [reread, allowedInBlock]

namespace Tree

theorem mem_rereadExprs {e : Expr} {es : List Expr} (h : e ∈ rereadExprs es) :
    ∃ e' ∈ es, e = e'.reread := by
  induction es with
  | nil => cases h
  | cons first es ih =>
    rw [rereadExprs] at h
    rcases List.mem_cons.mp h with rfl | h
    · exact ⟨first, List.mem_cons_self, rfl⟩
    · obtain ⟨e', hmem, rfl⟩ := ih h
      exact ⟨e', List.mem_cons_of_mem _ hmem, rfl⟩

theorem mem_rereadStmts {s : Stmt} {ss : List Stmt} (h : s ∈ rereadStmts ss) :
    ∃ s' ∈ ss, s = s'.reread := by
  induction ss with
  | nil => cases h
  | cons first ss ih =>
    rw [rereadStmts] at h
    rcases List.mem_cons.mp h with rfl | h
    · exact ⟨first, List.mem_cons_self, rfl⟩
    · obtain ⟨s', hmem, rfl⟩ := ih h
      exact ⟨s', List.mem_cons_of_mem _ hmem, rfl⟩

theorem mem_rereadTail {value : Expr} {tail : Option Expr} (h : value ∈ rereadTail tail) :
    ∃ value' ∈ tail, value = value'.reread := by
  cases tail with
  | none => cases h
  | some value' =>
    cases h
    exact ⟨value', rfl, rfl⟩

/-! ## It is printed alike -/

theorem stmtListPieces_append (ss ss' : List Stmt) :
    stmtListPieces (ss ++ ss') = stmtListPieces ss ++ stmtListPieces ss' := by
  induction ss with
  | nil => rfl
  | cons s ss ih => rw [List.cons_append, stmtListPieces, stmtListPieces, ih, List.cons_append]

@[simp] theorem blockPieces_settled (b : Block) : blockPieces b.settled = blockPieces b := by
  obtain ⟨stmts, tail, span⟩ := b
  rcases Block.settled_cases ⟨stmts, tail, span⟩ with
    ⟨hkept, -⟩ | ⟨kind, name, params, body, fnSpan, rfl, hmoved⟩
  · rw [hkept]
  · rw [hmoved]
    simp [blockPieces, stmtListPieces_append, stmtListPieces, tailPieces, stmtPieces, exprPieces]

mutual

@[simp] theorem exprPieces_reread (e : Expr) : exprPieces e.reread = exprPieces e := by
  cases e with
  | literal l => rfl
  | ident x => rfl
  | binary left op right span =>
    simp [Expr.reread, exprPieces, exprPieces_reread left, exprPieces_reread right,
      Expr.leftNeeds, Expr.rightNeeds]
  | unary op e span => simp [Expr.reread, exprPieces, exprPieces_reread e, Expr.operandNeeds]
  | block b => simp [Expr.reread, exprPieces, blockPieces_reread b]
  | function kind name params body span => simp [Expr.reread, exprPieces, exprPieces_reread body]
  | call callee args span => simp [Expr.reread, exprPieces, exprListPieces_reread args]
  | callValue callee args span =>
    simp [Expr.reread, exprPieces, exprPieces_reread callee, exprListPieces_reread args,
      Expr.calleeNeeds]
  | tuple elements span => simp [Expr.reread, exprPieces, exprListPieces_reread elements]
  | path p => rfl

theorem exprListPieces_reread (es : List Expr) :
    exprListPieces (rereadExprs es) = exprListPieces es := by
  cases es with
  | nil => rfl
  | cons e es => simp [rereadExprs, exprListPieces, exprPieces_reread e, exprListPieces_reread es]

theorem blockPieces_reread (b : Block) : blockPieces b.reread = blockPieces b := by
  obtain ⟨stmts, tail, span⟩ := b
  simp [Block.reread, blockPieces, stmtListPieces_reread stmts, tailPieces_reread tail]

theorem tailPieces_reread (tail : Option Expr) :
    tailPieces (rereadTail tail) = tailPieces tail := by
  cases tail with
  | none => rfl
  | some value => simp [rereadTail, tailPieces, exprPieces_reread value]

theorem stmtListPieces_reread (stmts : List Stmt) :
    stmtListPieces (rereadStmts stmts) = stmtListPieces stmts := by
  cases stmts with
  | nil => rfl
  | cons s ss =>
    simp [rereadStmts, stmtListPieces, stmtPieces_reread s, stmtListPieces_reread ss]

theorem stmtPieces_reread (s : Stmt) : stmtPieces s.reread = stmtPieces s := by
  cases s with
  | expr e span => simp [Stmt.reread, stmtPieces, exprPieces_reread e]
  | binding mutable name value span => simp [Stmt.reread, stmtPieces, exprPieces_reread value]
  | function kind name params body span =>
    simp [Stmt.reread, stmtPieces, blockPieces_reread body]
  | returning value span => simp [Stmt.reread, stmtPieces, exprPieces_reread value]
  | importResource resource localName span => rfl
  | importPath p span => rfl

end

end Tree

theorem Program.print_reread (program : Program) : program.reread.print = program.print := by
  simp [print, pieces, reread, Tree.stmtListPieces_reread]

theorem Expr.printsAsDeclaration_reread (e : Expr) :
    e.reread.printsAsDeclaration = e.printsAsDeclaration := by
  cases e with
  | function kind name params body span =>
    cases name with
    | none => rfl
    | some x => simp [reread, printsAsDeclaration]
  | _ => rfl

/-! ## It differs where a value was a declaration -/

namespace Grammar

open FrontEnd.Tree

mutual

theorem erase_reread_iff (e : Expr) :
    e.reread.erase = e.erase ↔ TailsFit (·.isRedeclared = false) (exprBlocks e) := by
  cases e with
  | literal l => simp [Expr.reread, exprBlocks]
  | ident x => simp [Expr.reread, exprBlocks]
  | binary left op right span =>
    simp [Expr.reread, Expr.erase, exprBlocks, erase_reread_iff left, erase_reread_iff right]
  | unary op e span => simp [Expr.reread, Expr.erase, exprBlocks, erase_reread_iff e]
  | block b => simp [Expr.reread, Expr.erase, exprBlocks, erase_rereadBlock_iff b]
  | function kind name params body span =>
    simp [Expr.reread, Expr.erase, exprBlocks, erase_reread_iff body]
  | call callee args span =>
    simp [Expr.reread, Expr.erase, exprBlocks, erase_rereadExprs_iff args]
  | callValue callee args span =>
    simp [Expr.reread, Expr.erase, exprBlocks, erase_reread_iff callee,
      erase_rereadExprs_iff args]
  | tuple elements span =>
    simp [Expr.reread, Expr.erase, exprBlocks, erase_rereadExprs_iff elements]
  | path p => simp [Expr.reread, exprBlocks]

theorem erase_rereadExprs_iff (es : List Expr) :
    eraseExprs (rereadExprs es) = eraseExprs es ↔
      TailsFit (·.isRedeclared = false) (exprsBlocks es) := by
  cases es with
  | nil => simp [rereadExprs, exprsBlocks]
  | cons e es =>
    simp [rereadExprs, eraseExprs, exprsBlocks, erase_reread_iff e, erase_rereadExprs_iff es]

theorem erase_rereadBlock_iff (b : Block) :
    b.reread.erase = b.erase ↔ TailsFit (·.isRedeclared = false) (blockBlocks b) := by
  obtain ⟨stmts, tail, span⟩ := b
  rw [blockBlocks, tailsFit_cons, tailsFit_append, Block.reread]
  rcases Block.settled_cases ⟨rereadStmts stmts, rereadTail tail, span⟩ with
    ⟨hkept, hvalues⟩ | ⟨kind, name, params, body, fnSpan, htail, hmoved⟩
  · have hfit : ∀ value ∈ tail, value.isRedeclared = false := by
      rintro value rfl
      rw [← Expr.isRedeclared_reread]
      exact hvalues _ rfl
    rw [hkept, and_iff_right hfit, ← erase_rereadStmts_iff stmts, ← erase_rereadTail_iff tail]
    simp [Block.erase]
  · -- The value has left its place, so the erased blocks differ there.
    obtain ⟨value, rfl⟩ : ∃ value, tail = some value := by
      cases tail with
      | none => cases htail
      | some value => exact ⟨value, rfl⟩
    have hvalue : value.isRedeclared = true := by
      rw [← Expr.isRedeclared_reread, Option.some.inj htail]
      rfl
    rw [hmoved]
    simp [Block.erase, eraseTail, hvalue]

theorem erase_rereadTail_iff (tail : Option Expr) :
    eraseTail (rereadTail tail) = eraseTail tail ↔
      TailsFit (·.isRedeclared = false) (tailBlocks tail) := by
  cases tail with
  | none => simp [rereadTail, tailBlocks]
  | some value => simp [rereadTail, eraseTail, tailBlocks, erase_reread_iff value]

theorem erase_rereadStmts_iff (stmts : List Stmt) :
    eraseStmts (rereadStmts stmts) = eraseStmts stmts ↔
      TailsFit (·.isRedeclared = false) (stmtsBlocks stmts) := by
  cases stmts with
  | nil => simp [rereadStmts, stmtsBlocks]
  | cons s ss =>
    simp [rereadStmts, eraseStmts, stmtsBlocks, erase_rereadStmt_iff s, erase_rereadStmts_iff ss]

theorem erase_rereadStmt_iff (s : Stmt) :
    s.reread.erase = s.erase ↔ TailsFit (·.isRedeclared = false) (stmtBlocks s) := by
  cases s with
  | expr e span => simp [Stmt.reread, Stmt.erase, stmtBlocks, erase_reread_iff e]
  | binding mutable name value span =>
    simp [Stmt.reread, Stmt.erase, stmtBlocks, erase_reread_iff value]
  | function kind name params body span =>
    simp [Stmt.reread, Stmt.erase, stmtBlocks, erase_rereadBlock_iff body]
  | returning value span => simp [Stmt.reread, Stmt.erase, stmtBlocks, erase_reread_iff value]
  | importResource resource localName span => simp [Stmt.reread, stmtBlocks]
  | importPath p span => simp [Stmt.reread, stmtBlocks]

end

/-! ## Its blocks have values that stay -/

section

variable {L : Lexeme → Prop} {b : Block}

theorem tail_reread (h : b.tail = none) : b.reread.tail = none := by
  obtain ⟨stmts, tail, span⟩ := b
  obtain rfl : tail = none := h
  exact Block.tail_settled rfl

/-- A function that is the value of a block is as good a statement. -/
theorem ProperExpr.toStmt {N : Expr → Prop} {kind : FunctionKind} {name : Ident}
    {params : List Ident} {body : Block} {span : TokenRange}
    (h : ProperExpr L N (.function kind (some name) params (.block body) span)) :
    ProperStmt L N (.function kind name params body span) := by
  cases h with
  | compute hname hparams hbody =>
    cases hbody with
    | block hbody => exact .function (hname name rfl) hparams hbody (by simp)
  | action hname hparams hbody htail =>
    exact .function (hname name rfl) hparams hbody fun _ => htail

/-- Settling leaves no value that is printed like a declaration, where none was torn. -/
theorem properBlock_settled {stmts : List Stmt} {tail : Option Expr} {span : TokenRange}
    (hstmts : ∀ s ∈ stmts, ProperStmt L (·.printsAsDeclaration = false) s)
    (hallowed : ∀ s ∈ stmts, s.allowedInBlock = true)
    (htail : ∀ value ∈ tail, ProperExpr L (·.printsAsDeclaration = false) value)
    (htorn : ∀ value ∈ tail, value.isTorn = false) :
    ProperBlock L (·.printsAsDeclaration = false) (Block.settled ⟨stmts, tail, span⟩) := by
  rcases Block.settled_cases ⟨stmts, tail, span⟩ with
    ⟨hkept, hvalues⟩ | ⟨kind, name, params, body, fnSpan, rfl, hmoved⟩
  · rw [hkept]
    refine .mk hstmts hallowed htail ?_
    intro value hvalue
    exact Expr.printsAsDeclaration_eq_false (htorn value hvalue) (hvalues value hvalue)
  · rw [hmoved]
    refine .mk ?_ ?_ (by simp) (by simp)
    · intro s hs
      rcases List.mem_append.mp hs with hs | hs
      · exact hstmts s hs
      · rw [List.mem_singleton.mp hs]
        exact (htail _ rfl).toStmt
    · intro s hs
      rcases List.mem_append.mp hs with hs | hs
      · exact hallowed s hs
      · rw [List.mem_singleton.mp hs]
        rfl

theorem properExprs_reread {es : List Expr}
    (h : ∀ e ∈ es, ProperExpr L (·.printsAsDeclaration = false) e.reread) :
    ∀ e ∈ rereadExprs es, ProperExpr L (·.printsAsDeclaration = false) e := by
  intro e he
  obtain ⟨e', hmem, rfl⟩ := mem_rereadExprs he
  exact h e' hmem

theorem isTorn_reread (e : Expr) : e.reread.isTorn = e.isTorn := by
  rw [Expr.isTorn, Expr.printsAsDeclaration_reread, Expr.isRedeclared_reread, Expr.isTorn]

mutual

theorem ProperExpr.reread {e : Expr} (h : ProperExpr L (·.isTorn = false) e) :
    ProperExpr L (·.printsAsDeclaration = false) e.reread := by
  match h with
  | .literal hl => exact .literal hl
  | .ident hx => exact .ident hx
  | .binary hop hleft hright => exact .binary hop hleft.reread hright.reread
  | .unary hop he => exact .unary hop he.reread
  | .block hb => exact .block hb.reread
  | .compute hname hparams hbody => exact .compute hname hparams hbody.reread
  | .action hname hparams hbody htail =>
    exact .action hname hparams hbody.reread (tail_reread htail)
  | .call hx hargs => exact .call hx (properExprs_reread fun e he => (hargs e he).reread)
  | .callValue hcallee hargs =>
    exact .callValue hcallee.reread (properExprs_reread fun e he => (hargs e he).reread)
  | .tuple hes => exact .tuple (properExprs_reread fun e he => (hes e he).reread)
  | .path hp => exact .path hp

theorem ProperBlock.reread {b : Block} (h : ProperBlock L (·.isTorn = false) b) :
    ProperBlock L (·.printsAsDeclaration = false) b.reread := by
  match h with
  | .mk hstmts hallowed htail hfit =>
    have hstmts' := fun s hs => (hstmts s hs).reread
    have htail' := fun value hvalue => (htail value hvalue).reread
    refine properBlock_settled ?_ ?_ ?_ ?_
    · intro s hs
      obtain ⟨s', hmem, rfl⟩ := mem_rereadStmts hs
      exact hstmts' s' hmem
    · intro s hs
      obtain ⟨s', hmem, rfl⟩ := mem_rereadStmts hs
      rw [Stmt.allowedInBlock_reread]
      exact hallowed s' hmem
    · intro value hvalue
      obtain ⟨value', hmem, rfl⟩ := mem_rereadTail hvalue
      exact htail' value' hmem
    · intro value hvalue
      obtain ⟨value', hmem, rfl⟩ := mem_rereadTail hvalue
      rw [isTorn_reread]
      exact hfit value' hmem

theorem ProperStmt.reread {s : Stmt} (h : ProperStmt L (·.isTorn = false) s) :
    ProperStmt L (·.printsAsDeclaration = false) s.reread := by
  match h with
  | .expr halone he => exact .expr (by rwa [Expr.canStandAlone_reread]) he.reread
  | .binding hx hvalue => exact .binding hx hvalue.reread
  | .function hx hparams hbody htail =>
    exact .function hx hparams hbody.reread fun hk => tail_reread (htail hk)
  | .returning hvalue => exact .returning hvalue.reread
  | .importResource hkind hl hx => exact .importResource hkind hl hx
  | .importPath hp => exact .importPath hp

end

end

end Grammar

namespace Program

open Grammar Lexical

variable {source : String} {program : Program}

/-- The text that is printed for a program is read as the program with its blocks settled, and as
the same program only if no block had to be. -/
theorem ofSource_print_reread (h : ofSource source = .ok program)
    (hfit : ∀ b ∈ program.blocks, ∀ value ∈ b.tail, value.isTorn = false) :
    (∃ ds, ofSource program.print = .error (.refused (.grammatical ds)) ∧
        ∃ d ∈ ds, d.cause = .nestingTooDeep maxDepth) ∨
      ∃ program', ofSource program.print = .ok program' ∧
        program'.erase = program.reread.erase ∧
        (program'.erase = program.erase ↔
          ∀ b ∈ program.blocks, ∀ value ∈ b.tail, value.isRedeclared = false) := by
  have hproper := proper_of_ofSource h hfit
  have hsettled : ∀ s ∈ program.reread.body,
      ProperStmt Written (·.printsAsDeclaration = false) s := by
    intro s hs
    obtain ⟨s', hmem, rfl⟩ := Tree.mem_rereadStmts hs
    exact (hproper s' hmem).reread
  obtain ⟨tokens, htokens, hpieces, hend⟩ := ofSource_of_legible (legible_program hsettled)
  obtain ⟨body, hbody, herase⟩ := programAt_of_proper (fun _ hprints => hprints) hsettled
    (piecesAt_intercalate_blank.mp hpieces) hend
  have htext : Token.ofSource program.print = .ok tokens := by
    rw [← print_reread, print, htokens]
  have hsame : (ofBody body).erase = program.reread.erase := by
    rw [erase, erase, body_ofBody, herase]
  have hiff : (ofBody body).erase = program.erase ↔
      TailsFit (·.isRedeclared = false) program.blocks := by
    rw [hsame, blocks, ← erase_rereadStmts_iff]
    simp [erase, reread]
  rcases ofTokens_of_programAt hbody with hread | ⟨ds, hread, hdeep⟩
  · right
    exact ⟨ofBody body, by simp only [ofSource, htext, hread], hsame, hiff⟩
  · left
    exact ⟨ds, by simp only [ofSource, htext, hread], hdeep⟩

/-- The parentheses around the function are gone, and with them the value of the first block. -/
theorem ofSource_print_reread_declaration :
    ∃ program program', ofSource "let x = { (compute f() -> { 1 }) };" = .ok program ∧
      program.print = "let x = { compute f() -> { 1 } };" ∧
      ofSource program.print = .ok program' ∧ program'.erase = program.reread.erase ∧
      program.blocks.map Block.hasTail = [true, true] ∧
      program'.blocks.map Block.hasTail = [false, true] ∧ program'.erase ≠ program.erase := by
  have hfacts : (ofSource "let x = { (compute f() -> { 1 }) };").toOption.map (fun program =>
      (program.print, program.blocks.map Block.hasTail,
        program.blocks.all fun b => b.tail.all fun e => !e.isTorn,
        program.blocks.all fun b => b.tail.all fun e => !e.isRedeclared)) =
        some ("let x = { compute f() -> { 1 } };", [true, true], true, false) := by
    decide +kernel
  have hread : (ofSource "let x = { compute f() -> { 1 } };").toOption.map (fun program =>
      program.blocks.map Block.hasTail) = some [false, true] := by
    decide +kernel
  cases hrun : ofSource "let x = { (compute f() -> { 1 }) };" with
  | error e =>
    rw [hrun] at hfacts
    cases hfacts
  | ok program =>
    rw [hrun] at hfacts
    simp only [Except.toOption, Option.map_some, Option.some.injEq, Prod.mk.injEq] at hfacts
    obtain ⟨hprint, htails, htorn, hredeclared⟩ := hfacts
    have hfit : ∀ b ∈ program.blocks, ∀ value ∈ b.tail, value.isTorn = false := by
      simpa [List.all_eq_true, Option.all_eq_true] using htorn
    have hmoved : ¬ ∀ b ∈ program.blocks, ∀ value ∈ b.tail, value.isRedeclared = false := by
      simpa [List.all_eq_false, Option.all_eq_false] using hredeclared
    rcases ofSource_print_reread hrun hfit with ⟨ds, herror, -⟩ | ⟨program', hsame, herase, hiff⟩
    · rw [hprint] at herror
      rw [herror] at hread
      cases hread
    · rw [← hprint, hsame] at hread
      exact ⟨program, program', rfl, hprint, hsame, herase, htails, Option.some.inj hread,
        fun hsame' => hmoved (hiff.mp hsame')⟩

end Program

end FrontEnd
