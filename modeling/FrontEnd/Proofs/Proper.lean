import FrontEnd.Proofs.Derivation

/-! The trees that the grammar makes. They obey rules that their types do not ask for: no name
spells a keyword, operators stand where their operations do, an action is a block without a value,
and so on. The rules are stated over a class of lexemes, of which all names and literals are, and
over what the value of a block may be. -/
namespace FrontEnd

namespace Tree

mutual

/-- The blocks of a tree, in the order in which they open. -/
def exprBlocks : Expr → List Block
  | .literal _ => []
  | .ident _ => []
  | .binary left _ right _ => exprBlocks left ++ exprBlocks right
  | .unary _ e _ => exprBlocks e
  | .block b => blockBlocks b
  | .function _ _ _ body _ => exprBlocks body
  | .call _ args _ => exprsBlocks args
  | .callValue callee args _ => exprBlocks callee ++ exprsBlocks args
  | .tuple elements _ => exprsBlocks elements
  | .path _ => []

def exprsBlocks : List Expr → List Block
  | [] => []
  | e :: es => exprBlocks e ++ exprsBlocks es

def blockBlocks : Block → List Block
  | ⟨stmts, tail, span⟩ => ⟨stmts, tail, span⟩ :: (stmtsBlocks stmts ++ tailBlocks tail)

def tailBlocks : Option Expr → List Block
  | none => []
  | some value => exprBlocks value

def stmtsBlocks : List Stmt → List Block
  | [] => []
  | s :: ss => stmtBlocks s ++ stmtsBlocks ss

def stmtBlocks : Stmt → List Block
  | .expr e _ => exprBlocks e
  | .binding _ _ value _ => exprBlocks value
  | .function _ _ _ body _ => blockBlocks body
  | .returning value _ => exprBlocks value
  | .importResource .. => []
  | .importPath .. => []

end

/-- Grouping keeps the blocks of the operands. -/
theorem exprBlocks_of_grouped {u e : Expr} {links : Links} (h : Grouped u links e) :
    exprBlocks e = exprBlocks u ++ links.flatMap fun l => exprBlocks l.2 := by
  induction h with
  | operand u => simp
  | split _ _ _ _ _ _ ihleft ihright => simp [Expr.join, exprBlocks, ihleft, ihright]

end Tree

namespace Program

/-- All blocks of a program. -/
def blocks (program : Program) : List Block :=
  Tree.stmtsBlocks program.body

end Program

namespace Grammar

/-- The values of the blocks are as they may be. -/
def TailsFit (N : Expr → Prop) (blocks : List Block) : Prop :=
  ∀ b ∈ blocks, ∀ value ∈ b.tail, N value

section

variable {N : Expr → Prop}

@[simp] theorem tailsFit_nil : TailsFit N [] := by
  simp [TailsFit]

@[simp] theorem tailsFit_append {bs cs : List Block} :
    TailsFit N (bs ++ cs) ↔ TailsFit N bs ∧ TailsFit N cs := by
  simp only [TailsFit, List.mem_append, or_imp, forall_and]

@[simp] theorem tailsFit_cons {b : Block} {bs : List Block} :
    TailsFit N (b :: bs) ↔ (∀ value ∈ b.tail, N value) ∧ TailsFit N bs := by
  simp only [TailsFit, List.mem_cons, forall_eq_or_imp]

end

section

variable (L : Lexeme → Prop) (N : Expr → Prop)

/-- A name that spells no keyword. -/
structure ProperName (x : Ident) : Prop where
  keyword : x.keyword = none
  ofText? : Keyword.ofText? x.name = none
  written : L (.word x.name)

def ProperLiteral (l : Literal) : Prop :=
  L (l.kind.lexeme l.value)

/-- An alias stands in imports, where there may be one. -/
def ProperAlias (place : PathPlace) (aliasable : Bool) (localName : Option Ident) : Prop :=
  ∀ x ∈ localName, place = .importing ∧ aliasable = true ∧ ProperName L x

mutual

inductive ProperPath : PathPlace → Path → Prop where
  | mk {place : PathPlace} {segment : Ident} {target : PathTarget} {aliasable : Bool}
      {localName : Option Ident} {span : TokenRange} (hsegment : ProperName L segment)
      (htarget : ProperTarget place target aliasable)
      (halias : ProperAlias L place aliasable localName) :
      ProperPath place ⟨segment, target, localName, span⟩

/-- What follows a double colon, and whether it may be given an alias. -/
inductive ProperTarget : PathPlace → PathTarget → Bool → Prop where
  | item {place : PathPlace} {x : Ident} (hx : ProperName L x) : ProperTarget place (.item x) true
  | nested {place : PathPlace} {next : Path} (hnext : ProperPath place next) :
      ProperTarget place (.nested next) false
  | wildcard {span : TokenRange} : ProperTarget .importing (.wildcard span) false
  | group {entries : List Path} (hne : entries ≠ [])
      (hentries : ∀ entry ∈ entries, ProperEntry entry) :
      ProperTarget .importing (.group entries) false

inductive ProperEntry : Path → Prop where
  | leaf {segment : Ident} {localName : Option Ident} {span : TokenRange}
      (hsegment : ProperName L segment) (halias : ProperAlias L .importing true localName) :
      ProperEntry ⟨segment, .leaf, localName, span⟩
  | path {entry : Path} (h : ProperPath .importing entry) : ProperEntry entry

end

mutual

inductive ProperExpr : Expr → Prop where
  | literal {l : Literal} (h : ProperLiteral L l) : ProperExpr (.literal l)
  | ident {x : Ident} (hx : ProperName L x) : ProperExpr (.ident x)
  | binary {left right : Expr} {op : Operator} {span : TokenRange}
      (hop : op.operation.isUnary = false) (hleft : ProperExpr left)
      (hright : ProperExpr right) : ProperExpr (.binary left op right span)
  | unary {op : Operator} {e : Expr} {span : TokenRange} (hop : op.operation.isUnary = true)
      (he : ProperExpr e) : ProperExpr (.unary op e span)
  | block {b : Block} (hb : ProperBlock b) : ProperExpr (.block b)
  | compute {name : Option Ident} {params : List Ident} {body : Expr} {span : TokenRange}
      (hname : ∀ x ∈ name, ProperName L x) (hparams : ∀ x ∈ params, ProperName L x)
      (hbody : ProperExpr body) : ProperExpr (.function .compute name params body span)
  | action {name : Option Ident} {params : List Ident} {body : Block} {span : TokenRange}
      (hname : ∀ x ∈ name, ProperName L x) (hparams : ∀ x ∈ params, ProperName L x)
      (hbody : ProperBlock body) (htail : body.tail = none) :
      ProperExpr (.function .action name params (.block body) span)
  | call {x : Ident} {args : List Expr} {span : TokenRange} (hx : ProperName L x)
      (hargs : ∀ e ∈ args, ProperExpr e) : ProperExpr (.call x args span)
  | callValue {callee : Expr} {args : List Expr} {span : TokenRange}
      (hcallee : ProperExpr callee) (hargs : ∀ e ∈ args, ProperExpr e) :
      ProperExpr (.callValue callee args span)
  | tuple {es : List Expr} {span : TokenRange} (hes : ∀ e ∈ es, ProperExpr e) :
      ProperExpr (.tuple es span)
  | path {p : Path} (hp : ProperPath L .expression p) : ProperExpr (.path p)

inductive ProperBlock : Block → Prop where
  | mk {stmts : List Stmt} {tail : Option Expr} {span : TokenRange}
      (hstmts : ∀ s ∈ stmts, ProperStmt s) (hallowed : ∀ s ∈ stmts, s.allowedInBlock = true)
      (htail : ∀ value ∈ tail, ProperExpr value) (hfit : ∀ value ∈ tail, N value) :
      ProperBlock ⟨stmts, tail, span⟩

inductive ProperStmt : Stmt → Prop where
  | expr {e : Expr} {span : TokenRange} (halone : e.canStandAlone = true) (he : ProperExpr e) :
      ProperStmt (.expr e span)
  | binding {mutable : Bool} {x : Ident} {value : Expr} {span : TokenRange}
      (hx : ProperName L x) (hvalue : ProperExpr value) :
      ProperStmt (.binding mutable x value span)
  | function {kind : FunctionKind} {x : Ident} {params : List Ident} {body : Block}
      {span : TokenRange} (hx : ProperName L x) (hparams : ∀ y ∈ params, ProperName L y)
      (hbody : ProperBlock body) (htail : kind = .action → body.tail = none) :
      ProperStmt (.function kind x params body span)
  | returning {value : Expr} {span : TokenRange} (hvalue : ProperExpr value) :
      ProperStmt (.returning value span)
  | importResource {l : Literal} {x : Ident} {span : TokenRange} (hkind : l.kind = .string)
      (hl : ProperLiteral L l) (hx : ProperName L x) : ProperStmt (.importResource l x span)
  | importPath {p : Path} {span : TokenRange} (hp : ProperPath L .importing p) :
      ProperStmt (.importPath p span)

end

/-- The words and literals among the lexemes are of the class. -/
structure Supplies (T : Nat → Lexeme) : Prop where
  word : ∀ i, (T i).kind = .word → L (.word (T i).value)
  literal : ∀ i kind, LiteralKind.ofLexeme? (T i) = some kind → L (kind.lexeme (T i).value)

end

variable {L : Lexeme → Prop} {N : Expr → Prop} {T : Nat → Lexeme} {i j : Nat}

theorem NameAt.proper (hT : Supplies L T) {x : Ident} (h : NameAt T i x) : ProperName L x := by
  obtain ⟨hword, hkey, rfl⟩ := h
  refine ⟨rfl, ?_, hT.word i hword⟩
  simpa [Lexeme.keyword?, hword] using hkey

theorem OptionalNameAt.proper (hT : Supplies L T) {name : Option Ident}
    (h : OptionalNameAt T i j name) : ∀ x ∈ name, ProperName L x := by
  cases h with
  | none => simp
  | some hx =>
    rintro _ ⟨⟩
    exact hx.proper hT

theorem ParamsAt.proper (hT : Supplies L T) {params : List Ident} (h : ParamsAt T i j params) :
    ∀ x ∈ params, ProperName L x := by
  induction h with
  | nil => simp
  | last hx _ =>
    intro y hy
    rw [List.mem_singleton.mp hy]
    exact hx.proper hT
  | cons hx _ _ ih =>
    intro y hy
    rcases List.mem_cons.mp hy with rfl | hy
    · exact hx.proper hT
    · exact ih y hy

theorem SignatureAt.proper (hT : Supplies L T) {kind : FunctionKind} {name : Option Ident}
    {params : List Ident} (h : SignatureAt T i j kind name params) :
    (∀ x ∈ name, ProperName L x) ∧ ∀ x ∈ params, ProperName L x := by
  obtain ⟨-, hname, -, hparams, -, -⟩ := h
  exact ⟨hname.proper hT, hparams.proper hT⟩

theorem AliasAt.proper (hT : Supplies L T) {allowed : Bool} {x : Option Ident}
    (h : AliasAt T allowed i j x) : ProperAlias L .importing allowed x := by
  cases h with
  | none => simp [ProperAlias]
  | some _ hx =>
    rintro _ ⟨⟩
    exact ⟨rfl, rfl, hx.proper hT⟩

theorem AliasInAt.proper (hT : Supplies L T) {place : PathPlace} {allowed : Bool}
    {x : Option Ident} (h : AliasInAt T place allowed i j x) : ProperAlias L place allowed x := by
  cases h with
  | importing h => exact h.proper hT
  | expression => simp [ProperAlias]

mutual

theorem PathAt.proper (hT : Supplies L T) {place : PathPlace} {segment : Ident} {i j : Nat}
    {p : Path} (hsegment : ProperName L segment) (h : PathAt T place segment i j p) :
    ProperPath L place p := by
  match h with
  | .mk htarget halias => exact .mk hsegment (htarget.proper hT) (halias.proper hT)

theorem TargetAt.proper (hT : Supplies L T) {place : PathPlace} {i j : Nat}
    {target : PathTarget} {aliasable : Bool} (h : TargetAt T place i j target aliasable) :
    ProperTarget L place target aliasable := by
  match h with
  | .item hx _ => exact .item (hx.proper hT)
  | .nested hx _ hnext => exact .nested (hnext.proper hT (hx.proper hT))
  | .wildcard _ => exact .wildcard
  | .group _ hentries _ => exact .group (List.cons_ne_nil _ _) (hentries.proper hT)

theorem EntriesAt.proper (hT : Supplies L T) {i j : Nat} {entries : List Path}
    (h : EntriesAt T i j entries) : ∀ entry ∈ entries, ProperEntry L entry := by
  match h with
  | .last hentry _ =>
    have hproper := hentry.proper hT
    intro entry hmem
    rw [List.mem_singleton.mp hmem]
    exact hproper
  | .cons hentry _ hentries =>
    have hproper := hentry.proper hT
    have hrest := hentries.proper hT
    intro entry hmem
    rcases List.mem_cons.mp hmem with rfl | hmem
    · exact hproper
    · exact hrest entry hmem

theorem EntryAt.proper (hT : Supplies L T) {i j : Nat} {entry : Path} (h : EntryAt T i j entry) :
    ProperEntry L entry := by
  match h with
  | .leaf hx _ halias => exact .leaf (hx.proper hT) (halias.proper hT)
  | .path hx _ hpath => exact .path (hpath.proper hT (hx.proper hT))

end

theorem ProperExpr.of_grouped {u e : Expr} {links : Links} (h : Grouped u links e)
    (hu : ProperExpr L N u) (hlinks : ∀ l ∈ links, ProperExpr L N l.2) : ProperExpr L N e := by
  induction h with
  | operand u => exact hu
  | @split _ v _ _ op _ _ between _ _ _ _ _ ihleft ihright =>
    refine .binary between (ihleft hu ?_) (ihright ?_ ?_)
    · intro l hl
      exact hlinks l (List.mem_append_left _ hl)
    · exact hlinks (op, v) (by simp)
    · intro l hl
      exact hlinks l (by simp [hl])

section

open FrontEnd.Tree

mutual

theorem ExprAt.proper (hT : Supplies L T) {i j : Nat} {e : Expr} (h : ExprAt T i j e)
    (hfit : TailsFit N (exprBlocks e)) : ProperExpr L N e := by
  match h with
  | .mk hu hlinks hgroup _ =>
    rw [exprBlocks_of_grouped hgroup, tailsFit_append] at hfit
    exact .of_grouped hgroup (hu.proper hT hfit.1) (hlinks.proper hT hfit.2)

theorem LinksAt.proper (hT : Supplies L T) {i j : Nat} {links : Links} (h : LinksAt T i j links)
    (hfit : TailsFit N (links.flatMap fun l => exprBlocks l.2)) :
    ∀ l ∈ links, ProperExpr L N l.2 := by
  match h with
  | .nil => simp
  | .cons _ hu hlinks =>
    rw [List.flatMap_cons, tailsFit_append] at hfit
    have hproper := hu.proper hT hfit.1
    have hrest := hlinks.proper hT hfit.2
    intro l hl
    rcases List.mem_cons.mp hl with rfl | hl
    · exact hproper
    · exact hrest l hl

theorem OperandAt.proper (hT : Supplies L T) {i j : Nat} {e : Expr} (h : OperandAt T i j e)
    (hfit : TailsFit N (exprBlocks e)) : ProperExpr L N e := by
  match h with
  | .before hop he => exact .unary (Operation.isUnary_of_unary? hop) (he.proper hT hfit)
  | .called hcallee hcalls =>
    exact hcalls.proper hT (hcallee.proper hT) hfit

/-- What is called is proper if its blocks are as they may be, and they are among those of the
calls. -/
theorem CallsAt.proper (hT : Supplies L T) {i j : Nat} {callee e : Expr}
    (h : CallsAt T i j callee e)
    (hcallee : TailsFit N (exprBlocks callee) → ProperExpr L N callee)
    (hfit : TailsFit N (exprBlocks e)) : ProperExpr L N e := by
  match h with
  | .done _ => exact hcallee hfit
  | .call hargs hcalls =>
    refine hcalls.proper hT ?_ hfit
    intro hfit'
    rw [exprBlocks, tailsFit_append] at hfit'
    exact .callValue (hcallee hfit'.1) (hargs.proper hT hfit'.2)

theorem ArgumentsAt.proper (hT : Supplies L T) {i j : Nat} {args : List Expr}
    (h : ArgumentsAt T i j args) (hfit : TailsFit N (exprsBlocks args)) :
    ∀ e ∈ args, ProperExpr L N e := by
  match h with
  | .mk _ hargs => exact hargs.proper hT hfit

theorem ExprsAt.proper (hT : Supplies L T) {i j : Nat} {es : List Expr} (h : ExprsAt T i j es)
    (hfit : TailsFit N (exprsBlocks es)) : ∀ e ∈ es, ProperExpr L N e := by
  match h with
  | .nil _ => simp
  | .last he _ =>
    rw [exprsBlocks, tailsFit_append] at hfit
    have hproper := he.proper hT hfit.1
    intro e hmem
    rw [List.mem_singleton.mp hmem]
    exact hproper
  | .cons he _ hes =>
    rw [exprsBlocks, tailsFit_append] at hfit
    have hproper := he.proper hT hfit.1
    have hrest := hes.proper hT hfit.2
    intro e hmem
    rcases List.mem_cons.mp hmem with rfl | hmem
    · exact hproper
    · exact hrest e hmem

theorem PrimaryAt.proper (hT : Supplies L T) {i j : Nat} {e : Expr} (h : PrimaryAt T i j e)
    (hfit : TailsFit N (exprBlocks e)) : ProperExpr L N e := by
  match h with
  | .literal hkind => exact .literal (hT.literal _ _ hkind)
  | .path hx _ hpath => exact .path (hpath.proper hT (hx.proper hT))
  | .call hx hargs => exact .call (hx.proper hT) (hargs.proper hT hfit)
  | .ident hx _ _ => exact .ident (hx.proper hT)
  | .unit _ _ => exact .tuple (by simp)
  | .grouping _ he _ => exact he.proper hT hfit
  | .tuple _ he _ hes =>
    rw [exprBlocks, exprsBlocks, tailsFit_append] at hfit
    have hproper := he.proper hT hfit.1
    have hrest := hes.proper hT hfit.2
    refine .tuple ?_
    intro e hmem
    rcases List.mem_cons.mp hmem with rfl | hmem
    · exact hproper
    · exact hrest e hmem
  | .block hb => exact .block (hb.proper hT hfit)
  | .compute hheader hbody =>
    obtain ⟨hname, hparams⟩ := hheader.proper hT
    exact .compute hname hparams (hbody.proper hT hfit)
  | .action hheader hbody htail =>
    obtain ⟨hname, hparams⟩ := hheader.proper hT
    exact .action hname hparams (hbody.proper hT hfit) htail

theorem BlockAt.proper (hT : Supplies L T) {i j : Nat} {b : Block} (h : BlockAt T i j b)
    (hfit : TailsFit N (blockBlocks b)) : ProperBlock L N b := by
  match h with
  | .mk _ hitems _ =>
    rw [blockBlocks, tailsFit_cons, tailsFit_append] at hfit
    obtain ⟨htail, hstmts, hvalue⟩ := hfit
    obtain ⟨h₁, h₂, h₃⟩ := hitems.proper hT hstmts hvalue
    exact .mk h₁ h₂ h₃ htail

theorem ItemsAt.proper (hT : Supplies L T) {i j : Nat} {stmts : List Stmt} {tail : Option Expr}
    (h : ItemsAt T i j stmts tail) (hstmts : TailsFit N (stmtsBlocks stmts))
    (hvalue : TailsFit N (tailBlocks tail)) :
    (∀ s ∈ stmts, ProperStmt L N s) ∧ (∀ s ∈ stmts, s.allowedInBlock = true) ∧
      ∀ value ∈ tail, ProperExpr L N value := by
  match h with
  | .nil _ => simp
  | .tail _ he _ =>
    have hproper := he.proper hT hvalue
    refine ⟨by simp, by simp, ?_⟩
    rintro _ ⟨⟩
    exact hproper
  | .functionTail _ _ he _ =>
    have hproper := he.proper hT hvalue
    refine ⟨by simp, by simp, ?_⟩
    rintro _ ⟨⟩
    exact hproper
  | .stmt hs hallowed hrest =>
    rw [stmtsBlocks, tailsFit_append] at hstmts
    have hproper := hs.proper hT hstmts.1
    obtain ⟨h₁, h₂, h₃⟩ := hrest.proper hT hstmts.2 hvalue
    refine ⟨?_, ?_, h₃⟩
    · intro s hmem
      rcases List.mem_cons.mp hmem with rfl | hmem
      · exact hproper
      · exact h₁ s hmem
    · intro s hmem
      rcases List.mem_cons.mp hmem with rfl | hmem
      · exact hallowed
      · exact h₂ s hmem

theorem StmtAt.proper (hT : Supplies L T) {i j : Nat} {stmt : Stmt} (h : StmtAt T i j stmt)
    (hfit : TailsFit N (stmtBlocks stmt)) : ProperStmt L N stmt := by
  match h with
  | .expr _ he _ halone => exact .expr halone (he.proper hT hfit)
  | .binding _ _ _ hx _ hvalue _ => exact .binding (hx.proper hT) (hvalue.proper hT hfit)
  | .function hheader hbody htail =>
    obtain ⟨hname, hparams⟩ := hheader.proper hT
    exact .function (hname _ rfl) hparams (hbody.proper hT hfit) htail
  | .returning _ hvalue _ => exact .returning (hvalue.proper hT hfit)
  | .importResource _ _ hstring _ hx _ =>
    refine .importResource rfl (hT.literal _ .string ?_) (hx.proper hT)
    simp [LiteralKind.ofLexeme?, hstring]
  | .importPath _ hx _ hpath _ => exact .importPath (hpath.proper hT (hx.proper hT))

end

theorem ProgramAt.proper (hT : Supplies L T) {stmts : List Stmt} (h : ProgramAt T i j stmts)
    (hfit : TailsFit N (stmtsBlocks stmts)) : ∀ s ∈ stmts, ProperStmt L N s := by
  induction h with
  | nil => simp
  | cons hs _ ih =>
    rw [stmtsBlocks, tailsFit_append] at hfit
    intro s hmem
    rcases List.mem_cons.mp hmem with rfl | hmem
    · exact hs.proper hT hfit.1
    · exact ih hfit.2 s hmem

end

end Grammar

end FrontEnd
