import FrontEnd.Proofs.Extent
import FrontEnd.Proofs.Shift
import FrontEnd.Proofs.Parallel.Block

/-! Derivations moved along the tokens. How a stretch of lexemes is read depends on these lexemes,
and on the one behind them only as far as it might go on with an expression. So the same lexemes
further on are read as the same tree, moved along with them, whatever it is that ends them there. -/
namespace FrontEnd

theorem TokenRange.single_add (k i : Nat) : single (k + i) = (single i).shift k := by
  rw [shift_single, Nat.add_comm]

theorem TokenRange.clamped_add (k i j : Nat) :
    clamped (k + i) (k + j) = (clamped i j).shift k := by
  rw [shift_clamped, Nat.add_comm k i, Nat.add_comm k j]

theorem Block.tail_shift_eq_none {k : Nat} {b : Block} (h : b.tail = none) :
    (b.shift k).tail = none := by
  obtain ⟨stmts, tail, span⟩ := b
  obtain rfl : tail = none := h
  rfl

/-- The links of a chain, moved along the token list. -/
def Links.shift (k : Nat) (links : Links) : Links :=
  links.map fun l => (l.1.shift k, l.2.shift k)

/-- Operators bind as tightly as before they were moved. -/
theorem Links.forall_level_shift {k : Nat} {links : Links} {P : Nat → Prop}
    (h : ∀ l ∈ links, P l.1.level) : ∀ l ∈ Links.shift k links, P l.1.level := by
  intro l hl
  obtain ⟨l', hl', rfl⟩ := List.mem_map.mp hl
  exact h l' hl'

/-- Where operators and operands stand has no part in how they are grouped. -/
theorem Grouped.shift {u e : Expr} {links : Links} (hgroup : Grouped u links e) (k : Nat) :
    Grouped (u.shift k) (Links.shift k links) (e.shift k) := by
  induction hgroup with
  | operand u => exact .operand (u.shift k)
  | @split u v left right op before after between loosest last first _ _ ihleft ihright =>
    have hall := Links.forall_level_shift (k := k) (P := (op.level ≤ ·)) loosest
    rw [Links.shift, List.map_append] at hall
    rw [Expr.shift_join, Links.shift, List.map_append, List.map_cons]
    exact .split (show (op.shift k).operation.isUnary = false from between) hall
      (fun hleft => Links.forall_level_shift (P := (op.level < ·)) (last hleft))
      (fun hright => Links.forall_level_shift (P := (op.level < ·)) (first hright)) ihleft ihright

namespace Grammar

/-- No expression goes on with the lexeme. -/
structure Delimits (l : Lexeme) : Prop where
  not_colon : l.kind ≠ .doubleColon
  not_paren : l.kind ≠ .openParen
  loose : l.bindingPower? = none

theorem Delimits.of_kind {l : Lexeme}
    (h : l.kind ∈ [.semicolon, .comma, .closeParen, .closeCurly]) : Delimits l := by
  simp only [List.mem_cons, List.not_mem_nil, or_false] at h
  rcases h with h | h | h | h <;>
    exact ⟨by simp [h], by simp [h], by simp [Lexeme.bindingPower?, Operation.binary?, h]⟩

/-- The lexemes before the place `b` stand `k` places further on again, where something else may
end them. -/
structure Relocates (T T' : Nat → Lexeme) (k b : Nat) : Prop where
  same : ∀ i, i < b → T' (k + i) = T i
  ends : Delimits (T' (k + b))

variable {T T' : Nat → Lexeme} {i j k b : Nat}

namespace Relocates

/-- What a lexeme is not, another one behind the stretch is not either. -/
theorem lacks (h : Relocates T T' k b) {P : Lexeme → Prop} (hends : ∀ l, Delimits l → P l)
    (hi : i ≤ b) (hP : P (T i)) : P (T' (k + i)) := by
  rcases Nat.lt_or_eq_of_le hi with hlt | rfl
  · rwa [h.same i hlt]
  · exact hends _ h.ends

theorem not_colon (h : Relocates T T' k b) (hi : i ≤ b) (hc : (T i).kind ≠ .doubleColon) :
    (T' (k + i)).kind ≠ .doubleColon :=
  h.lacks (fun _ hl => hl.not_colon) hi hc

theorem not_paren (h : Relocates T T' k b) (hi : i ≤ b) (hp : (T i).kind ≠ .openParen) :
    (T' (k + i)).kind ≠ .openParen :=
  h.lacks (fun _ hl => hl.not_paren) hi hp

theorem loose (h : Relocates T T' k b) (hi : i ≤ b) (hp : (T i).bindingPower? = none) :
    (T' (k + i)).bindingPower? = none :=
  h.lacks (fun _ hl => hl.loose) hi hp

theorem shows (h : Relocates T T' k b) {α : Type} (f : Lexeme → α) (hi : i < b) {a : α}
    (ha : f (T i) = a) : f (T' (k + i)) = a := by
  rw [h.same i hi, ha]

theorem kind (h : Relocates T T' k b) (hi : i < b) {kind : TokenKind} (hk : (T i).kind = kind) :
    (T' (k + i)).kind = kind :=
  h.shows Lexeme.kind hi hk

theorem not_kind (h : Relocates T T' k b) (hi : i < b) {kind : TokenKind}
    (hk : (T i).kind ≠ kind) : (T' (k + i)).kind ≠ kind := by
  rwa [h.same i hi]

theorem keyword (h : Relocates T T' k b) (hi : i < b) {keyword : Option Keyword}
    (hk : (T i).keyword? = keyword) : (T' (k + i)).keyword? = keyword :=
  h.shows Lexeme.keyword? hi hk

theorem functionKind (h : Relocates T T' k b) (hi : i < b) {kind : FunctionKind}
    (hk : (T i).keyword?.bind Keyword.functionKind? = some kind) :
    (T' (k + i)).keyword?.bind Keyword.functionKind? = some kind :=
  h.shows (fun l => l.keyword?.bind Keyword.functionKind?) hi hk

end Relocates

/-! ## Names, headers and paths -/

theorem NameAt.relocate {x : Ident} (hx : NameAt T i x) (h : Relocates T T' k b) (hi : i < b) :
    NameAt T' (k + i) (x.shift k) := by
  obtain ⟨hword, hkeyword, rfl⟩ := hx
  refine ⟨h.kind hi hword, h.keyword hi hkeyword, ?_⟩
  rw [h.same i hi, TokenRange.single_add]
  rfl

theorem OptionalNameAt.relocate {name : Option Ident} (hname : OptionalNameAt T i j name)
    (h : Relocates T T' k b) (hj : j < b) :
    OptionalNameAt T' (k + i) (k + j) (name.map (Ident.shift k)) := by
  cases hname with
  | none hno => exact .none (h.not_kind hj hno)
  | some hx => exact .some (hx.relocate h (Nat.lt_of_succ_lt hj))

theorem ParamsAt.relocate {params : List Ident} (hparams : ParamsAt T i j params)
    (h : Relocates T T' k b) (hj : j < b) :
    ParamsAt T' (k + i) (k + j) (params.map (Ident.shift k)) := by
  induction hparams with
  | nil hclose => exact .nil (h.kind hj hclose)
  | last hx hclose => exact .last (hx.relocate h (Nat.lt_of_succ_lt hj)) (h.kind hj hclose)
  | cons hx hcomma hxs ih =>
    have hle := hxs.le
    exact .cons (hx.relocate h (by omega)) (h.kind (by omega) hcomma) (ih hj)

theorem SignatureAt.relocate {kind : FunctionKind} {name : Option Ident} {params : List Ident}
    (hheader : SignatureAt T i j kind name params) (h : Relocates T T' k b) (hj : j ≤ b) :
    SignatureAt T' (k + i) (k + j) kind (name.map (Ident.shift k))
      (params.map (Ident.shift k)) := by
  obtain ⟨hkind, hname, hopen, hparams, hclose, harrow⟩ := hheader
  have hle := hname.le
  have hle' := hparams.le
  exact .mk (h.functionKind (by omega) hkind) (hname.relocate h (by omega))
    (h.kind (by omega) hopen) (hparams.relocate h (by omega)) (h.kind (by omega) hclose)
    (h.kind (by omega) harrow)

/-- A header has one name. -/
theorem SignatureAt.name_unique {j' : Nat} {kind kind' : FunctionKind} {x y : Option Ident}
    {xs ys : List Ident} (hx : SignatureAt T i j kind x xs) (hy : SignatureAt T i j' kind' y ys) :
    x = y := by
  obtain ⟨-, hname, -, -, -, -⟩ := hx
  obtain ⟨-, hname', -, -, -, -⟩ := hy
  cases hname with
  | none hno =>
    cases hname' with
    | none => rfl
    | some hy => exact absurd hy.1 hno
  | some hx =>
    cases hname' with
    | none hno => exact absurd hx.1 hno
    | some hy => rw [hx.unique hy]

/-- A header that declares nothing is that of an expression, which goes on behind it. -/
theorem not_declaresAt_relocate {kind : FunctionKind} {e : Expr} (he : ExprAt T i j e)
    (hkind : (T i).keyword?.bind Keyword.functionKind? = some kind) (hn : ¬ DeclaresAt T i)
    (h : Relocates T T' k b) (hj : j < b) : ¬ DeclaresAt T' (k + i) := by
  obtain ⟨m, name, params, hheader, hm⟩ := he.signatureAt hkind
  have hmoved := hheader.relocate h (by omega)
  intro hdeclares
  -- the other header is this one: it ends where this one does, and so before the end of the stretch
  obtain ⟨m', kind', name', params', hheader', hopen⟩ := hdeclares
  obtain rfl := hheader'.stop_unique hmoved
  have hname := hmoved.name_unique hheader'
  cases name with
  | none => cases hname
  | some x =>
    rw [h.same m (by omega)] at hopen
    exact hn ⟨m, kind, x, params, hheader, hopen⟩

theorem AliasAt.relocate {allowed : Bool} {x : Option Ident} (hx : AliasAt T allowed i j x)
    (h : Relocates T T' k b) (hj : j < b) :
    AliasAt T' allowed (k + i) (k + j) (x.map (Ident.shift k)) := by
  cases hx with
  | none hno => exact .none (h.not_kind hj hno)
  | some has hx =>
    exact .some (h.keyword (by omega) has) (hx.relocate h (i := i + 1) (by omega))

/-- How far a path has to stay in front of the end of the stretch: behind an import the grammar
looks for an alias. -/
def PathPlace.margin : PathPlace → Nat
  | .importing => 1
  | .expression => 0

theorem AliasInAt.relocate {place : PathPlace} {allowed : Bool} {x : Option Ident}
    (hx : AliasInAt T place allowed i j x) (h : Relocates T T' k b) (hj : j + place.margin ≤ b) :
    AliasInAt T' place allowed (k + i) (k + j) (x.map (Ident.shift k)) := by
  cases hx with
  | importing hx => exact .importing (hx.relocate h hj)
  | expression => exact .expression

mutual

theorem PathAt.relocate {place : PathPlace} {segment : Ident} {i j : Nat} {p : Path}
    (hp : PathAt T place segment i j p) (h : Relocates T T' k b) (hj : j + place.margin ≤ b) :
    PathAt T' place (segment.shift k) (k + i) (k + j) (p.shift k) := by
  match hp with
  | .mk htarget halias =>
    have hle := halias.le
    have hmoved : PathAt T' place (segment.shift k) (k + i) (k + j) _ :=
      .mk (htarget.relocate h (by omega)) (halias.relocate h hj)
    have hspan : TokenRange.clamped (segment.shift k).span.start (k + j) =
        (TokenRange.clamped segment.span.start j).shift k := by
      rw [TokenRange.shift_clamped, Nat.add_comm k j]
      rfl
    rw [hspan] at hmoved
    exact hmoved

theorem TargetAt.relocate {place : PathPlace} {i j : Nat} {target : PathTarget} {aliasable : Bool}
    (ht : TargetAt T place i j target aliasable) (h : Relocates T T' k b)
    (hj : j + place.margin ≤ b) :
    TargetAt T' place (k + i) (k + j) (target.shift k) aliasable := by
  match ht with
  | .item hx hend =>
    exact .item (hx.relocate h (by omega)) (h.not_colon (i := i + 1) (by omega) hend)
  | .nested hx hcolon hnext =>
    have hlt := hnext.lt
    exact .nested (hx.relocate h (by omega)) (h.kind (i := i + 1) (by omega) hcolon)
      (hnext.relocate h hj)
  | .wildcard hstar =>
    rw [PathTarget.shift, ← TokenRange.single_add]
    exact .wildcard (h.kind (by omega) hstar)
  | .group hopen hentries hclose =>
    have hlt := hentries.lt
    -- the brace is still in the stretch, whatever follows the entries
    have hj' := Nat.lt_of_succ_lt hj
    exact .group (h.kind (by omega) hopen) (hentries.relocate h hj') (h.kind hj' hclose)

theorem EntriesAt.relocate {i j : Nat} {entries : List Path} (hes : EntriesAt T i j entries)
    (h : Relocates T T' k b) (hj : j < b) :
    EntriesAt T' (k + i) (k + j) (Path.shiftEntries k entries) := by
  match hes with
  | .last hentry hclose => exact .last (hentry.relocate h hj) (h.kind hj hclose)
  | .cons hentry hcomma hentries =>
    have hlt := hentries.lt
    exact .cons (hentry.relocate h (by omega)) (h.kind (by omega) hcomma)
      (hentries.relocate h hj)

theorem EntryAt.relocate {i j : Nat} {entry : Path} (he : EntryAt T i j entry)
    (h : Relocates T T' k b) (hj : j < b) : EntryAt T' (k + i) (k + j) (entry.shift k) := by
  match he with
  | .leaf hx hend halias =>
    have hle := halias.le
    rw [Path.shift, ← TokenRange.clamped_add]
    exact .leaf (hx.relocate h (by omega)) (h.not_colon (i := i + 1) (by omega) hend)
      (halias.relocate h hj)
  | .path hx hcolon hpath =>
    have hlt := hpath.lt
    exact .path (hx.relocate h (by omega)) (h.kind (i := i + 1) (by omega) hcolon)
      (hpath.relocate h hj)

end

/-! ## Expressions, blocks and statements -/

mutual

theorem ExprAt.relocate {i j : Nat} {e : Expr} (he : ExprAt T i j e)
    (h : Relocates T T' k b) (hj : j ≤ b) : ExprAt T' (k + i) (k + j) (e.shift k) := by
  match he with
  | .mk hu hlinks hgroup hend =>
    have hle := hlinks.le
    exact .mk (hu.relocate h (by omega)) (hlinks.relocate h hj) (hgroup.shift k) (h.loose hj hend)

theorem LinksAt.relocate {i j : Nat} {links : Links} (hlinks : LinksAt T i j links)
    (h : Relocates T T' k b) (hj : j ≤ b) : LinksAt T' (k + i) (k + j) (Links.shift k links) := by
  match hlinks with
  | .nil => exact .nil
  | .cons hop hu hlinks =>
    have hlt := hu.lt
    have hle := hlinks.le
    have hmoved := LinksAt.cons (h.shows Operation.binary? (by omega) hop)
      (hu.relocate h (by omega)) (hlinks.relocate h hj)
    rw [TokenRange.single_add] at hmoved
    exact hmoved

theorem OperandAt.relocate {i j : Nat} {e : Expr} (he : OperandAt T i j e)
    (h : Relocates T T' k b) (hj : j ≤ b) : OperandAt T' (k + i) (k + j) (e.shift k) := by
  match he with
  | .before hop he =>
    have hlt := he.lt
    have hmoved := OperandAt.before (h.shows Operation.unary? (by omega) hop) (he.relocate h hj)
    rw [TokenRange.single_add, Expr.span_shift, Nat.add_comm k i] at hmoved
    rw [Nat.add_comm k i]
    exact hmoved
  | .called hcallee hcalls =>
    have hle := hcalls.le
    exact .called (hcallee.relocate h (by omega)) (hcalls.relocate h hj)

theorem CallsAt.relocate {i j : Nat} {callee e : Expr} (he : CallsAt T i j callee e)
    (h : Relocates T T' k b) (hj : j ≤ b) :
    CallsAt T' (k + i) (k + j) (callee.shift k) (e.shift k) := by
  match he with
  | .done hparen => exact .done (h.not_paren hj hparen)
  | .call (k := m) hargs hcalls =>
    have hle := hcalls.le
    have hmoved := hcalls.relocate h hj
    have hspan : (TokenRange.clamped callee.span.start m).shift k =
        .clamped (callee.shift k).span.start (k + m) := by
      rw [TokenRange.shift_clamped, Expr.span_shift, Nat.add_comm k m]
      rfl
    rw [Expr.shift, hspan] at hmoved
    exact .call (hargs.relocate h (by omega)) hmoved

theorem ArgumentsAt.relocate {i j : Nat} {args : List Expr} (ha : ArgumentsAt T i j args)
    (h : Relocates T T' k b) (hj : j ≤ b) :
    ArgumentsAt T' (k + i) (k + j) (Tree.shiftExprs k args) := by
  match ha with
  | .mk hopen hargs =>
    have hle := hargs.le
    exact .mk (h.kind (by omega) hopen) (hargs.relocate h hj)

theorem ExprsAt.relocate {i j : Nat} {es : List Expr} (hes : ExprsAt T i j es)
    (h : Relocates T T' k b) (hj : j < b) :
    ExprsAt T' (k + i) (k + j) (Tree.shiftExprs k es) := by
  match hes with
  | .nil hclose => exact .nil (h.kind hj hclose)
  | .last he hclose => exact .last (he.relocate h (by omega)) (h.kind hj hclose)
  | .cons he hcomma hes =>
    have hle := hes.le
    exact .cons (he.relocate h (by omega)) (h.kind (by omega) hcomma) (hes.relocate h hj)

theorem PrimaryAt.relocate {i j : Nat} {e : Expr} (he : PrimaryAt T i j e)
    (h : Relocates T T' k b) (hj : j ≤ b) : PrimaryAt T' (k + i) (k + j) (e.shift k) := by
  match he with
  | .literal hl =>
    have hmoved := PrimaryAt.literal (h.shows LiteralKind.ofLexeme? hj hl)
    rw [h.same i hj, TokenRange.single_add] at hmoved
    exact hmoved
  | .path hx hcolon hpath =>
    have hlt := hpath.lt
    exact .path (hx.relocate h (by omega)) (h.kind (i := i + 1) (by omega) hcolon)
      (hpath.relocate h hj)
  | .call hx hargs =>
    have hlt := hargs.lt
    rw [Expr.shift, ← TokenRange.clamped_add]
    exact .call (hx.relocate h (by omega)) (hargs.relocate h hj)
  | .ident hx hpath hcall =>
    exact .ident (hx.relocate h hj) (h.not_colon (i := i + 1) hj hpath)
      (h.not_paren (i := i + 1) hj hcall)
  | .unit hopen hclose =>
    rw [Expr.shift, ← TokenRange.clamped_add]
    exact .unit (h.kind (by omega) hopen) (h.kind (i := i + 1) hj hclose)
  | .grouping hopen he hclose =>
    have hlt := he.lt
    exact .grouping (h.kind (by omega) hopen) (he.relocate h (by omega)) (h.kind hj hclose)
  | .tuple hopen he hcomma hes =>
    have hlt := he.lt
    have hle := hes.le
    rw [Expr.shift, ← TokenRange.clamped_add]
    exact .tuple (h.kind (by omega) hopen) (he.relocate h (by omega)) (h.kind (by omega) hcomma)
      (hes.relocate h hj)
  | .block hb => exact .block (hb.relocate h hj)
  | .compute hheader hbody =>
    have hlt := hbody.lt
    have hmoved := PrimaryAt.compute (hheader.relocate h (by omega)) (hbody.relocate h hj)
    rw [Expr.span_shift, Nat.add_comm k i] at hmoved
    rw [Nat.add_comm k i]
    exact hmoved
  | .action hheader hbody htail =>
    have hlt := hbody.lt
    have hmoved := PrimaryAt.action (hheader.relocate h (by omega)) (hbody.relocate h hj)
      (Block.tail_shift_eq_none htail)
    rw [Block.span_shift, Nat.add_comm k i] at hmoved
    rw [Nat.add_comm k i]
    exact hmoved

theorem BlockAt.relocate {i j : Nat} {block : Block} (hb : BlockAt T i j block)
    (h : Relocates T T' k b) (hj : j ≤ b) : BlockAt T' (k + i) (k + j) (block.shift k) := by
  match hb with
  | .mk hopen hitems hclose =>
    have hle := hitems.le
    rw [Block.shift, ← TokenRange.clamped_add]
    exact .mk (h.kind (by omega) hopen) (hitems.relocate h hj) (h.kind hj hclose)

theorem ItemsAt.relocate {i j : Nat} {stmts : List Stmt} {tail : Option Expr}
    (hitems : ItemsAt T i j stmts tail) (h : Relocates T T' k b) (hj : j < b) :
    ItemsAt T' (k + i) (k + j) (Tree.shiftStmts k stmts) (Tree.shiftTail k tail) := by
  match hitems with
  | .nil hclose => exact .nil (h.kind hj hclose)
  | .tail hkeyword he hclose =>
    have hlt := he.lt
    exact .tail (h.keyword (by omega) hkeyword) (he.relocate h (by omega)) (h.kind hj hclose)
  | .functionTail hkind hn he hclose =>
    have hlt := he.lt
    exact .functionTail (h.functionKind (by omega) hkind) (not_declaresAt_relocate he hkind hn h hj)
      (he.relocate h (by omega)) (h.kind hj hclose)
  | .stmt (s := s) hs hallowed hstmts =>
    have hle := hstmts.le
    have hallowed' : (s.shift k).allowedInBlock = true := by
      rw [Stmt.allowedInBlock_shift, hallowed]
    exact .stmt (hs.relocate h (by omega)) hallowed' (hstmts.relocate h hj)

theorem StmtAt.relocate {i j : Nat} {stmt : Stmt} (hs : StmtAt T i j stmt)
    (h : Relocates T T' k b) (hj : j ≤ b) : StmtAt T' (k + i) (k + j) (stmt.shift k) := by
  match hs with
  | .expr (e := e) hkeyword he hsemi halone =>
    have hlt := he.lt
    have halone' : (e.shift k).canStandAlone = true := by
      rw [Expr.canStandAlone_shift, halone]
    rw [Stmt.shift, ← TokenRange.clamped_add]
    exact .expr (h.keyword (by omega) hkeyword) (he.relocate h (by omega)) (h.kind hj hsemi)
      halone'
  | .binding (k := m) hlet hmutable hm hx hassign hvalue hsemi =>
    have hlt := hvalue.lt
    have hmutable' := h.same (i + 1) (by omega) ▸ hmutable
    rw [Stmt.shift, ← TokenRange.clamped_add]
    exact .binding (h.keyword (by omega) hlet) hmutable' (by omega)
      (hx.relocate h (by omega)) (h.kind (i := m + 1) (by omega) hassign)
      (hvalue.relocate h (by omega)) (h.kind hj hsemi)
  | .function hheader hbody htail =>
    have hlt := hbody.lt
    have hmoved := StmtAt.function (x := Ident.shift k _) (hheader.relocate h (by omega))
      (hbody.relocate h hj) fun hkind => Block.tail_shift_eq_none (htail hkind)
    rw [Block.span_shift, Nat.add_comm k i] at hmoved
    rw [Nat.add_comm k i]
    exact hmoved
  | .returning hkeyword hvalue hsemi =>
    have hlt := hvalue.lt
    rw [Stmt.shift, ← TokenRange.clamped_add]
    exact .returning (h.keyword (by omega) hkeyword) (hvalue.relocate h (by omega))
      (h.kind hj hsemi)
  | .importResource hkeyword hext hstring has hx hsemi =>
    have hmoved := StmtAt.importResource (h.keyword (by omega) hkeyword)
      (h.keyword (i := i + 1) (by omega) hext) (h.kind (i := i + 2) (by omega) hstring)
      (h.keyword (i := i + 3) (by omega) has) (hx.relocate h (by omega))
      (h.kind (i := i + 5) (by omega) hsemi)
    have hvalue : T' (k + i + 2) = T (i + 2) := h.same (i + 2) (by omega)
    rw [hvalue, Nat.add_assoc k i 2, TokenRange.single_add, Nat.add_assoc k i 6,
      TokenRange.clamped_add] at hmoved
    exact hmoved
  | .importPath hkeyword hx hcolon hpath hsemi =>
    have hlt := hpath.lt
    rw [Stmt.shift, ← TokenRange.clamped_add]
    exact .importPath (h.keyword (by omega) hkeyword) (hx.relocate h (by omega))
      (h.kind (i := i + 2) (by omega) hcolon) (hpath.relocate h hj) (h.kind hj hsemi)

end

end Grammar

end FrontEnd
