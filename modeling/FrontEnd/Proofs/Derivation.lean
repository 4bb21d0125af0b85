import FrontEnd.Grammar.Level
import FrontEnd.Grammar.Signature
import FrontEnd.Proofs.Grouping

/-! The grammar as a relation between stretches of lexemes and trees. A statement `XAt T i j x`
says that the lexemes at the places from `i` up to `j` are read as `x`, all spans included. Where
reading has to look at the lexeme behind the stretch to know that it ends there, the relation says
what that lexeme is not. -/
namespace FrontEnd.Grammar

section

variable (T : Nat → Lexeme)

/-- A word that is no keyword. -/
def NameAt (i : Nat) (x : Ident) : Prop :=
  (T i).kind = .word ∧ (T i).keyword? = none ∧ x = ⟨(T i).value, none, .single i⟩

/-- A name that may be left out. -/
inductive OptionalNameAt : Nat → Nat → Option Ident → Prop where
  | none {i : Nat} (h : (T i).kind ≠ .word) : OptionalNameAt i i none
  | some {i : Nat} {x : Ident} (h : NameAt T i x) : OptionalNameAt i (i + 1) (some x)

/-- Parameters up to the closing parenthesis. -/
inductive ParamsAt : Nat → Nat → List Ident → Prop where
  | nil {i : Nat} (h : (T i).kind = .closeParen) : ParamsAt i i []
  | last {i : Nat} {x : Ident} (h : NameAt T i x) (hclose : (T (i + 1)).kind = .closeParen) :
      ParamsAt i (i + 1) [x]
  | cons {i j : Nat} {x : Ident} {xs : List Ident} (h : NameAt T i x)
      (hcomma : (T (i + 1)).kind = .comma) (hxs : ParamsAt (i + 2) j xs) :
      ParamsAt i j (x :: xs)

/-- A function header, its arrow included. -/
inductive SignatureAt : Nat → Nat → FunctionKind → Option Ident → List Ident → Prop where
  | mk {i k j : Nat} {kind : FunctionKind} {name : Option Ident} {params : List Ident}
      (hkind : (T i).keyword?.bind Keyword.functionKind? = some kind)
      (hname : OptionalNameAt T (i + 1) k name) (hopen : (T k).kind = .openParen)
      (hparams : ParamsAt T (k + 1) j params) (hclose : (T j).kind = .closeParen)
      (harrow : (T (j + 1)).kind = .arrow) : SignatureAt i (j + 2) kind name params

/-- The header of a function declaration stands here. -/
def DeclaresAt (i : Nat) : Prop :=
  ∃ j kind name params, SignatureAt T i j kind (some name) params ∧ (T j).kind = .openCurly

/-- The alias behind a path target, where there may be one. -/
inductive AliasAt : Bool → Nat → Nat → Option Ident → Prop where
  | none {allowed : Bool} {i : Nat} (h : (T i).kind ≠ .word) : AliasAt allowed i i none
  | some {i : Nat} {x : Ident} (has : (T i).keyword? = some .asKey) (h : NameAt T (i + 1) x) :
      AliasAt true i (i + 2) (some x)

/-- The alias behind a path target in the given place. -/
inductive AliasInAt : PathPlace → Bool → Nat → Nat → Option Ident → Prop where
  | importing {allowed : Bool} {i j : Nat} {x : Option Ident} (h : AliasAt T allowed i j x) :
      AliasInAt .importing allowed i j x
  | expression {allowed : Bool} {i : Nat} : AliasInAt .expression allowed i i none

mutual

/-- A path behind its first segment and the double colon. -/
inductive PathAt : PathPlace → Ident → Nat → Nat → Path → Prop where
  | mk {place : PathPlace} {segment : Ident} {i k j : Nat} {target : PathTarget}
      {aliasable : Bool} {localName : Option Ident}
      (htarget : TargetAt place i k target aliasable)
      (halias : AliasInAt T place aliasable k j localName) :
      PathAt place segment i j ⟨segment, target, localName, .clamped segment.span.start j⟩

/-- What follows a double colon, and whether it may be given an alias. -/
inductive TargetAt : PathPlace → Nat → Nat → PathTarget → Bool → Prop where
  | item {place : PathPlace} {i : Nat} {x : Ident} (h : NameAt T i x)
      (hend : (T (i + 1)).kind ≠ .doubleColon) : TargetAt place i (i + 1) (.item x) true
  | nested {place : PathPlace} {i j : Nat} {x : Ident} {next : Path} (h : NameAt T i x)
      (hcolon : (T (i + 1)).kind = .doubleColon) (hnext : PathAt place x (i + 2) j next) :
      TargetAt place i j (.nested next) false
  | wildcard {i : Nat} (h : (T i).kind = .star) :
      TargetAt .importing i (i + 1) (.wildcard (.single i)) false
  | group {i j : Nat} {entry : Path} {entries : List Path} (h : (T i).kind = .openCurly)
      (hentries : EntriesAt (i + 1) j (entry :: entries)) (hclose : (T j).kind = .closeCurly) :
      TargetAt .importing i (j + 1) (.group (entry :: entries)) false

/-- The entries of a group, separated by commas. -/
inductive EntriesAt : Nat → Nat → List Path → Prop where
  | last {i j : Nat} {entry : Path} (h : EntryAt i j entry)
      (hclose : (T j).kind = .closeCurly) : EntriesAt i j [entry]
  | cons {i k j : Nat} {entry : Path} {entries : List Path} (h : EntryAt i k entry)
      (hcomma : (T k).kind = .comma) (hentries : EntriesAt (k + 1) j entries) :
      EntriesAt i j (entry :: entries)

/-- One entry of a group. -/
inductive EntryAt : Nat → Nat → Path → Prop where
  | leaf {i j : Nat} {x : Ident} {localName : Option Ident} (h : NameAt T i x)
      (hend : (T (i + 1)).kind ≠ .doubleColon) (halias : AliasAt T true (i + 1) j localName) :
      EntryAt i j ⟨x, .leaf, localName, .clamped i j⟩
  | path {i j : Nat} {x : Ident} {entry : Path} (h : NameAt T i x)
      (hcolon : (T (i + 1)).kind = .doubleColon)
      (hpath : PathAt .importing x (i + 2) j entry) : EntryAt i j entry

end

mutual

/-- A whole expression: a chain that no further operator extends. -/
inductive ExprAt : Nat → Nat → Expr → Prop where
  | mk {i k j : Nat} {u e : Expr} {links : Links} (hu : OperandAt i k u)
      (hlinks : LinksAt k j links) (hgroup : Grouped u links e)
      (hend : (T j).bindingPower? = none) : ExprAt i j e

/-- Operators between operands, each with the operand behind it. -/
inductive LinksAt : Nat → Nat → Links → Prop where
  | nil {i : Nat} : LinksAt i i []
  | cons {i k j : Nat} {operation : Operation} {u : Expr} {links : Links}
      (hop : Operation.binary? (T i) = some operation) (hu : OperandAt (i + 1) k u)
      (hlinks : LinksAt k j links) : LinksAt i j ((⟨operation, .single i⟩, u) :: links)

/-- An operand with the operators before it. -/
inductive OperandAt : Nat → Nat → Expr → Prop where
  | before {i j : Nat} {operation : Operation} {e : Expr}
      (hop : Operation.unary? (T i) = some operation) (he : OperandAt (i + 1) j e) :
      OperandAt i j (.unary ⟨operation, .single i⟩ e ⟨i, e.span.stop⟩)
  | called {i k j : Nat} {callee e : Expr} (hcallee : PrimaryAt i k callee)
      (hcalls : CallsAt k j callee e) : OperandAt i j e

/-- The calls of the value before them. -/
inductive CallsAt : Nat → Nat → Expr → Expr → Prop where
  | done {i : Nat} {callee : Expr} (h : (T i).kind ≠ .openParen) : CallsAt i i callee callee
  | call {i k j : Nat} {callee e : Expr} {args : List Expr} (hargs : ArgumentsAt i k args)
      (hcalls : CallsAt k j (.callValue callee args (.clamped callee.span.start k)) e) :
      CallsAt i j callee e

/-- The arguments of a call, in parentheses. -/
inductive ArgumentsAt : Nat → Nat → List Expr → Prop where
  | mk {i j : Nat} {args : List Expr} (hopen : (T i).kind = .openParen)
      (hargs : ExprsAt (i + 1) j args) : ArgumentsAt i (j + 1) args

/-- Expressions with commas between them, up to the closing parenthesis. -/
inductive ExprsAt : Nat → Nat → List Expr → Prop where
  | nil {i : Nat} (h : (T i).kind = .closeParen) : ExprsAt i i []
  | last {i j : Nat} {e : Expr} (he : ExprAt i j e) (hclose : (T j).kind = .closeParen) :
      ExprsAt i j [e]
  | cons {i k j : Nat} {e : Expr} {es : List Expr} (he : ExprAt i k e)
      (hcomma : (T k).kind = .comma) (hes : ExprsAt (k + 1) j es) : ExprsAt i j (e :: es)

/-- An expression without operators. -/
inductive PrimaryAt : Nat → Nat → Expr → Prop where
  | literal {i : Nat} {kind : LiteralKind} (h : LiteralKind.ofLexeme? (T i) = some kind) :
      PrimaryAt i (i + 1) (.literal ⟨kind, (T i).value, .single i⟩)
  | path {i j : Nat} {x : Ident} {p : Path} (h : NameAt T i x)
      (hcolon : (T (i + 1)).kind = .doubleColon)
      (hpath : PathAt T .expression x (i + 2) j p) : PrimaryAt i j (.path p)
  | call {i j : Nat} {x : Ident} {args : List Expr} (h : NameAt T i x)
      (hargs : ArgumentsAt (i + 1) j args) : PrimaryAt i j (.call x args (.clamped i j))
  | ident {i : Nat} {x : Ident} (h : NameAt T i x) (hpath : (T (i + 1)).kind ≠ .doubleColon)
      (hcall : (T (i + 1)).kind ≠ .openParen) : PrimaryAt i (i + 1) (.ident x)
  | unit {i : Nat} (hopen : (T i).kind = .openParen)
      (hclose : (T (i + 1)).kind = .closeParen) :
      PrimaryAt i (i + 2) (.tuple [] (.clamped i (i + 2)))
  | grouping {i j : Nat} {e : Expr} (hopen : (T i).kind = .openParen) (he : ExprAt (i + 1) j e)
      (hclose : (T j).kind = .closeParen) : PrimaryAt i (j + 1) e
  | tuple {i k j : Nat} {e : Expr} {es : List Expr} (hopen : (T i).kind = .openParen)
      (he : ExprAt (i + 1) k e) (hcomma : (T k).kind = .comma) (hes : ExprsAt (k + 1) j es) :
      PrimaryAt i (j + 1) (.tuple (e :: es) (.clamped i (j + 1)))
  | block {i j : Nat} {b : Block} (h : BlockAt i j b) : PrimaryAt i j (.block b)
  | compute {i k j : Nat} {name : Option Ident} {params : List Ident} {body : Expr}
      (hheader : SignatureAt T i k .compute name params) (hbody : ExprAt k j body) :
      PrimaryAt i j (.function .compute name params body ⟨i, body.span.stop⟩)
  | action {i k j : Nat} {name : Option Ident} {params : List Ident} {body : Block}
      (hheader : SignatureAt T i k .action name params) (hbody : BlockAt k j body)
      (htail : body.tail = none) :
      PrimaryAt i j (.function .action name params (.block body) ⟨i, body.span.stop⟩)

/-- A block in its braces. -/
inductive BlockAt : Nat → Nat → Block → Prop where
  | mk {i j : Nat} {stmts : List Stmt} {tail : Option Expr} (hopen : (T i).kind = .openCurly)
      (hitems : ItemsAt (i + 1) j stmts tail) (hclose : (T j).kind = .closeCurly) :
      BlockAt i (j + 1) ⟨stmts, tail, .clamped i (j + 1)⟩

/-- The statements of a block, and its value, up to the closing brace. A function without the
header of a declaration is the value. -/
inductive ItemsAt : Nat → Nat → List Stmt → Option Expr → Prop where
  | nil {i : Nat} (h : (T i).kind = .closeCurly) : ItemsAt i i [] none
  | tail {i j : Nat} {e : Expr} (h : (T i).keyword? = none) (he : ExprAt i j e)
      (hclose : (T j).kind = .closeCurly) : ItemsAt i j [] (some e)
  | functionTail {i j : Nat} {kind : FunctionKind} {e : Expr}
      (h : (T i).keyword?.bind Keyword.functionKind? = some kind) (hn : ¬ DeclaresAt T i)
      (he : ExprAt i j e) (hclose : (T j).kind = .closeCurly) : ItemsAt i j [] (some e)
  | stmt {i k j : Nat} {s : Stmt} {stmts : List Stmt} {tail : Option Expr} (hs : StmtAt i k s)
      (hallowed : s.allowedInBlock = true) (hstmts : ItemsAt k j stmts tail) :
      ItemsAt i j (s :: stmts) tail

/-- A statement. -/
inductive StmtAt : Nat → Nat → Stmt → Prop where
  | expr {i j : Nat} {e : Expr} (h : (T i).keyword? = none) (he : ExprAt i j e)
      (hsemi : (T j).kind = .semicolon) (halone : e.canStandAlone = true) :
      StmtAt i (j + 1) (.expr e (.clamped i (j + 1)))
  | binding {i k j : Nat} {mutable : Bool} {x : Ident} {value : Expr}
      (hlet : (T i).keyword? = some .letKey)
      (hmutable : mutable = (T (i + 1)).isKeyword .varKey) (hk : k = i + 1 + mutable.toNat)
      (h : NameAt T k x) (hassign : (T (k + 1)).kind = .assign) (hvalue : ExprAt (k + 2) j value)
      (hsemi : (T j).kind = .semicolon) :
      StmtAt i (j + 1) (.binding mutable x value (.clamped i (j + 1)))
  | function {i k j : Nat} {kind : FunctionKind} {x : Ident} {params : List Ident}
      {body : Block} (hheader : SignatureAt T i k kind (some x) params)
      (hbody : BlockAt k j body) (htail : kind = .action → body.tail = none) :
      StmtAt i j (.function kind x params body ⟨i, body.span.stop⟩)
  | returning {i j : Nat} {value : Expr} (h : (T i).keyword? = some .returnKey)
      (hvalue : ExprAt (i + 1) j value) (hsemi : (T j).kind = .semicolon) :
      StmtAt i (j + 1) (.returning value (.clamped i (j + 1)))
  | importResource {i : Nat} {x : Ident} (h : (T i).keyword? = some .importKey)
      (hext : (T (i + 1)).keyword? = some .externKey) (hstring : (T (i + 2)).kind = .string)
      (has : (T (i + 3)).keyword? = some .asKey) (hx : NameAt T (i + 4) x)
      (hsemi : (T (i + 5)).kind = .semicolon) :
      StmtAt i (i + 6) (.importResource ⟨.string, (T (i + 2)).value, .single (i + 2)⟩ x
        (.clamped i (i + 6)))
  | importPath {i j : Nat} {x : Ident} {p : Path} (h : (T i).keyword? = some .importKey)
      (hx : NameAt T (i + 1) x) (hcolon : (T (i + 2)).kind = .doubleColon)
      (hpath : PathAt T .importing x (i + 3) j p) (hsemi : (T j).kind = .semicolon) :
      StmtAt i (j + 1) (.importPath p (.clamped i (j + 1)))

end

/-- The statements up to the end mark. -/
inductive ProgramAt : Nat → Nat → List Stmt → Prop where
  | nil {i : Nat} (h : (T i).kind = .endMark) : ProgramAt i i []
  | cons {i k j : Nat} {s : Stmt} {stmts : List Stmt} (hs : StmtAt T i k s)
      (hstmts : ProgramAt k j stmts) : ProgramAt i j (s :: stmts)

end

/-- Operators between operands, each with the operand behind it; `V` is what stands for an operand
in the lexemes. -/
inductive ChainAt (V : (Nat → Lexeme) → Nat → Nat → Expr → Prop) (T : Nat → Lexeme) :
    Nat → Nat → Links → Prop where
  | nil {i : Nat} : ChainAt V T i i []
  | cons {i k j : Nat} {operation : Operation} {u : Expr} {links : Links}
      (hop : Operation.binary? (T i) = some operation) (hu : V T (i + 1) k u)
      (hlinks : ChainAt V T k j links) : ChainAt V T i j ((⟨operation, .single i⟩, u) :: links)

variable {V : (Nat → Lexeme) → Nat → Nat → Expr → Prop}

namespace ChainAt

variable {T : Nat → Lexeme} {i j : Nat} {links : Links}

theorem le (hV : ∀ T i j u, V T i j u → i < j) (h : ChainAt V T i j links) : i ≤ j := by
  induction h with
  | nil => exact Nat.le_refl _
  | cons _ hu _ ih =>
    have := hV _ _ _ _ hu
    omega

theorem append_inv {more rest : Links} (h : ChainAt V T i j (more ++ rest)) :
    ∃ k, ChainAt V T i k more ∧ ChainAt V T k j rest := by
  induction more generalizing i with
  | nil => exact ⟨i, .nil, h⟩
  | cons l more ih =>
    cases h with
    | cons hop hu hlinks =>
      obtain ⟨k, hmore, hrest⟩ := ih hlinks
      exact ⟨k, .cons hop hu hmore, hrest⟩

theorem isUnary (h : ChainAt V T i j links) : ∀ l ∈ links, l.1.operation.isUnary = false := by
  induction h with
  | nil => simp
  | cons hop _ _ ih =>
    intro l hl
    rcases List.mem_cons.mp hl with rfl | hl
    · exact Operation.isUnary_of_binary? hop
    · exact ih l hl

/-- The lexeme at the start of a chain is its first operator. -/
theorem bindingPower?_head {l : Operator × Expr} (h : ChainAt V T i j (l :: links)) :
    (T i).bindingPower? = some (l.1.level, l.1.operation.associativity) := by
  cases h with
  | cons hop _ _ => exact Lexeme.bindingPower?_of_binary? hop

end ChainAt

end FrontEnd.Grammar
