import FrontEnd.Proofs.Extent
import FrontEnd.Proofs.Nodes
import FrontEnd.Proofs.Reading.Program

/-! How the spans of an accepted program lie. Grouping parentheses belong to no node, so a node may
be narrower than what was read for it; still no span is empty, children lie inside their parents
one behind the other, and statements leave no gap between them. -/
namespace FrontEnd

/-- The statements follow each other without a gap, from one place to another. -/
def Stmt.Tile : Nat → Nat → List Stmt → Prop
  | i, j, [] => i = j
  | i, j, s :: ss => s.span.start = i ∧ Stmt.Tile s.span.stop j ss

namespace Grammar

open Node

section

variable (T : Nat → Lexeme)

/-- A block spans its braces, and its statements follow each other from the opening one on, up to
the closing one if it has no value. -/
def BlockTiled (b : Block) : Prop :=
  (T b.span.start).kind = .openCurly ∧ (T (b.span.stop - 1)).kind = .closeCurly ∧
    ∃ k, Stmt.Tile (b.span.start + 1) k b.stmts ∧ (b.tail = none → k + 1 = b.span.stop)

/-- The spans of a node and of its children lie as they should. -/
structure Placed (node : Node) : Prop where
  nonempty : node.span.start < node.span.stop
  inside : ∀ child ∈ node.children, node.span.start ≤ child.span.start ∧
    child.span.stop ≤ node.span.stop
  ordered : node.children.Pairwise fun a b => a.span.stop ≤ b.span.start
  single : node.isToken = true → node.span = .single node.span.start
  tiled : ∀ b, node = .block b → BlockTiled T b

/-- Nodes that stand one behind the other between two places, with all nodes below them placed. -/
inductive Row : Nat → Nat → List Node → Prop where
  | nil {i j : Nat} (h : i ≤ j) : Row i j []
  | cons {i j : Nat} {node : Node} {nodes : List Node} (hi : i ≤ node.span.start)
      (hnode : Everywhere (Placed T) node) (hrest : Row node.span.stop j nodes) :
      Row i j (node :: nodes)

end

variable {T : Nat → Lexeme} {i j k : Nat} {node : Node} {nodes more : List Node}

namespace Row

theorem le (h : Row T i j nodes) : i ≤ j := by
  induction h with
  | nil h => exact h
  | cons hi hnode _ ih =>
    have := hnode.here.nonempty
    omega

theorem append (h : Row T i k nodes) (h' : Row T k j more) : Row T i j (nodes ++ more) := by
  induction h with
  | nil hik =>
    cases h' with
    | nil hkj => exact .nil (Nat.le_trans hik hkj)
    | cons hi hnode hrest => exact .cons (Nat.le_trans hik hi) hnode hrest
  | cons hi hnode _ ih => exact .cons hi hnode (ih h')

/-- A row may be given more room. -/
theorem widen {i' j' : Nat} (h : Row T i j nodes) (hi : i' ≤ i) (hj : j ≤ j') :
    Row T i' j' nodes := by
  have hall := (Row.nil (T := T) hi).append (h.append (.nil hj))
  simpa using hall

/-- A node that fills the place of a row. -/
theorem single (h : Everywhere (Placed T) node) (hi : i ≤ node.span.start)
    (hj : node.span.stop ≤ j) : Row T i j [node] :=
  .cons hi h (.nil hj)

theorem everywhere (h : Row T i j nodes) : ∀ node ∈ nodes, Everywhere (Placed T) node := by
  induction h with
  | nil _ => simp
  | cons _ hnode _ ih =>
    intro node hmem
    rcases List.mem_cons.mp hmem with rfl | hmem
    · exact hnode
    · exact ih node hmem

theorem inside (h : Row T i j nodes) :
    ∀ node ∈ nodes, i ≤ node.span.start ∧ node.span.stop ≤ j := by
  induction h with
  | nil _ => simp
  | cons hi hnode hrest ih =>
    have hne := hnode.here.nonempty
    intro node hmem
    rcases List.mem_cons.mp hmem with rfl | hmem
    · exact ⟨hi, hrest.le⟩
    · have := ih node hmem
      exact ⟨by omega, this.2⟩

theorem ordered (h : Row T i j nodes) :
    nodes.Pairwise fun a b => a.span.stop ≤ b.span.start := by
  induction h with
  | nil _ => exact .nil
  | cons _ _ hrest ih => exact .cons (fun node hmem => (hrest.inside node hmem).1) ih

/-- A node is placed if its children stand in a row inside it. -/
theorem parent (h : Row T i j node.children) (hspan : node.span = ⟨i, j⟩) (hlt : i < j)
    (htoken : node.isToken = false) (htiled : ∀ b, node = .block b → BlockTiled T b) :
    Row T i j [node] := by
  have hplaced : Everywhere (Placed T) node := by
    refine .mk ⟨?_, ?_, h.ordered, ?_, htiled⟩ h.everywhere
    · rw [hspan]
      exact hlt
    · rw [hspan]
      exact h.inside
    · intro htoken'
      rw [htoken] at htoken'
      cases htoken'
  refine single hplaced ?_ ?_
  · exact Nat.le_of_eq (congrArg TokenRange.start hspan).symm
  · exact Nat.le_of_eq (congrArg TokenRange.stop hspan)

/-- A node that is one token. -/
theorem token (hspan : node.span = .single i) (hnone : node.children = [])
    (htiled : ∀ b, node = .block b → BlockTiled T b) : Row T i (i + 1) [node] := by
  refine single (.leaf ⟨?_, ?_, ?_, ?_, htiled⟩ hnone) ?_ ?_
  · rw [hspan]
    exact Nat.lt_succ_self i
  · rw [hnone]
    simp
  · rw [hnone]
    exact .nil
  · intro _
    rw [hspan]
    rfl
  · exact Nat.le_of_eq (congrArg TokenRange.start hspan).symm
  · exact Nat.le_of_eq (congrArg TokenRange.stop hspan)

theorem expr {e : Expr} (h : Row T i j (ofExpr e)) (hspan : e.span = ⟨i, j⟩) (hlt : i < j) :
    Row T i j [.expr e] :=
  have hchildren : Row T i j (Node.expr e).children := h
  parent hchildren hspan hlt rfl nofun

/-- The one expression of a row lies in it. -/
theorem within {e : Expr} (h : Row T i j [.expr e]) : e.span.Within i j := by
  cases h with
  | cons hi hnode hrest => exact ⟨hi, hnode.here.nonempty, hrest.le⟩

/-- The one expression of a row needs only the room that it spans. -/
theorem tight {e : Expr} (h : Row T i j [.expr e]) :
    Row T e.span.start e.span.stop [.expr e] := by
  cases h with
  | cons _ hnode _ => exact single hnode (Nat.le_refl _) (Nat.le_refl _)

theorem stmt {s : Stmt} (h : Row T i j (ofStmt s)) (hspan : s.span = ⟨i, j⟩) (hlt : i < j) :
    Row T i j [.stmt s] :=
  have hchildren : Row T i j (Node.stmt s).children := h
  parent hchildren hspan hlt rfl nofun

theorem path {p : Path} (h : Row T i j (Node.path p).children) (hspan : p.span = ⟨i, j⟩)
    (hlt : i < j) : Row T i j [.path p] :=
  parent h hspan hlt rfl nofun

end Row

theorem NameAt.row {x : Ident} (h : NameAt T i x) : Row T i (i + 1) [.ident x] := by
  obtain ⟨-, -, rfl⟩ := h
  exact .token rfl rfl nofun

theorem OptionalNameAt.row {name : Option Ident} (h : OptionalNameAt T i j name) :
    Row T i j (name.toList.map .ident) := by
  cases h with
  | none => exact .nil (Nat.le_refl i)
  | some h => exact h.row

theorem ParamsAt.row {params : List Ident} (h : ParamsAt T i j params) :
    Row T i j (params.map .ident) := by
  induction h with
  | nil => exact .nil (Nat.le_refl _)
  | last h _ => exact h.row
  | cons h _ _ ih => exact h.row.append (ih.widen (Nat.le_succ _) (Nat.le_refl _))

theorem SignatureAt.row {kind : FunctionKind} {name : Option Ident} {params : List Ident}
    (h : SignatureAt T i j kind name params) :
    Row T i j ((name.toList ++ params).map .ident) := by
  obtain ⟨-, hname, -, hparams, -, -⟩ := h
  rw [List.map_append]
  exact (hname.row.widen (Nat.le_succ i) (Nat.le_succ _)).append
    (hparams.row.widen (Nat.le_refl _) (Nat.le_add_right _ 2))

theorem AliasAt.row {allowed : Bool} {x : Option Ident} (h : AliasAt T allowed i j x) :
    Row T i j (x.toList.map .ident) := by
  cases h with
  | none => exact .nil (Nat.le_refl i)
  | some _ h => exact h.row.widen (Nat.le_succ i) (Nat.le_refl _)

theorem AliasInAt.row {place : PathPlace} {allowed : Bool} {x : Option Ident}
    (h : AliasInAt T place allowed i j x) : Row T i j (x.toList.map .ident) := by
  cases h with
  | importing h => exact h.row
  | expression => exact .nil (Nat.le_refl i)

mutual

/-- A path reaches from its first segment to its end. -/
theorem PathAt.row {place : PathPlace} {segment : Ident} {i j k : Nat} {p : Path}
    (hx : NameAt T k segment) (hk : k < i) (h : PathAt T place segment i j p) :
    Row T k j [.path p] := by
  have hlt : k < j := Nat.lt_trans hk h.lt
  have hspan : p.span = ⟨k, j⟩ := by
    rw [h.span_eq, hx.2.2]
    exact TokenRange.clamped_of_le (Nat.le_of_lt hlt)
  match h with
  | .mk htarget halias =>
    refine .path ?_ hspan hlt
    exact hx.row.append ((htarget.row.append halias.row).widen hk (Nat.le_refl j))

theorem TargetAt.row {place : PathPlace} {i j : Nat} {target : PathTarget} {aliasable : Bool}
    (h : TargetAt T place i j target aliasable) : Row T i j (ofTarget target) := by
  match h with
  | .item h _ => exact h.row
  | .nested h _ hnext => exact hnext.row h (by omega)
  | .wildcard _ => exact .token rfl rfl nofun
  | .group _ hentries _ => exact hentries.row.widen (Nat.le_succ i) (Nat.le_succ _)

theorem EntriesAt.row {i j : Nat} {entries : List Path} (h : EntriesAt T i j entries) :
    Row T i j (entries.map .path) := by
  match h with
  | .last h _ => exact h.row
  | .cons h _ hentries =>
    exact (h.row.widen (Nat.le_refl i) (Nat.le_succ _)).append hentries.row

theorem EntryAt.row {i j : Nat} {entry : Path} (h : EntryAt T i j entry) :
    Row T i j [.path entry] := by
  match h with
  | .leaf h _ halias =>
    have hle := halias.le
    refine .path ?_ (TokenRange.clamped_of_le (by omega)) (by omega)
    exact h.row.append halias.row
  | .path h _ hpath => exact hpath.row h (by omega)

end

/-- An operand stands between two places, with all nodes below it placed. -/
def RowAt (T : Nat → Lexeme) (i j : Nat) (u : Expr) : Prop :=
  Row T i j [.expr u]

/-- A tree stands where its operands and operators do. -/
theorem ChainAt.row {u e : Expr} {links : Links} (hgroup : Grouped u links e) :
    ∀ {i k j : Nat}, Row T i k [.expr u] → ChainAt RowAt T k j links →
      Row T i j [.expr e] := by
  induction hgroup with
  | operand u =>
    intro i k j hu h
    cases h with
    | nil => exact hu
  | @split u v left right op before after _ _ _ _ _ _ ihleft ihright =>
    intro i k j hu h
    obtain ⟨m, hbefore, hrest⟩ := h.append_inv
    cases hrest with
    | @cons _ _ _ operation _ _ hop hv hafter =>
      have hleft := ihleft hu hbefore
      have hright := ihright hv hafter
      -- the tree starts and ends with its operands, whose parentheses stay outside
      obtain ⟨hl₁, hl₂, hl₃⟩ := hleft.within
      obtain ⟨hr₁, hr₂, hr₃⟩ := hright.within
      have hop : Row T m (m + 1) [.operator ⟨operation, .single m⟩] := .token rfl rfl nofun
      have hchildren : Row T left.span.start right.span.stop
          [.expr left, .operator ⟨operation, .single m⟩, .expr right] :=
        ((hleft.tight.widen (Nat.le_refl _) hl₃).append hop).append
          (hright.tight.widen hr₁ (Nat.le_refl _))
      have hjoin : Row T left.span.start right.span.stop
          [.expr (left.join ⟨operation, .single m⟩ right)] :=
        .expr hchildren (TokenRange.clamped_of_le (by omega)) (by omega)
      exact hjoin.widen hl₁ hr₃

mutual

theorem ExprAt.row {i j : Nat} {e : Expr} (h : ExprAt T i j e) : Row T i j [.expr e] := by
  match h with
  | .mk hu hlinks hgroup _ => exact ChainAt.row hgroup hu.row hlinks.rows

theorem LinksAt.rows {i j : Nat} {links : Links} (h : LinksAt T i j links) :
    ChainAt RowAt T i j links := by
  match h with
  | .nil => exact .nil
  | .cons hop hu hlinks => exact .cons hop hu.row hlinks.rows

theorem OperandAt.row {i j : Nat} {e : Expr} (h : OperandAt T i j e) :
    Row T i j [.expr e] := by
  match h with
  | .before (e := e) _ he =>
    -- the span ends with the operand, not with its parentheses
    have hrow := he.row
    obtain ⟨h₁, h₂, h₃⟩ := hrow.within
    have hop : ∀ operation, Row T i (i + 1) [.operator ⟨operation, .single i⟩] :=
      fun _ => .token rfl rfl nofun
    refine Row.widen (.expr ((hop _).append ?_) rfl (by omega)) (Nat.le_refl i) h₃
    exact hrow.tight.widen h₁ (Nat.le_refl _)
  | .called hcallee hcalls => exact hcalls.row hcallee.row

theorem CallsAt.row {i j k : Nat} {callee e : Expr} (h : CallsAt T i j callee e)
    (hcallee : Row T k i [.expr callee]) : Row T k j [.expr e] := by
  match h with
  | .done _ => exact hcallee
  | .call hargs hcalls =>
    obtain ⟨h₁, h₂, h₃⟩ := hcallee.within
    have hle := hargs.row.le
    refine hcalls.row (Row.widen (.expr ?_ (TokenRange.clamped_of_le ?_) ?_) h₁ (Nat.le_refl _))
    · exact (hcallee.tight.widen (Nat.le_refl _) h₃).append hargs.row
    · omega
    · omega

theorem ArgumentsAt.row {i j : Nat} {args : List Expr} (h : ArgumentsAt T i j args) :
    Row T i j (args.map .expr) := by
  match h with
  | .mk _ hargs => exact hargs.row.widen (Nat.le_succ i) (Nat.le_succ _)

theorem ExprsAt.row {i j : Nat} {es : List Expr} (h : ExprsAt T i j es) :
    Row T i j (es.map .expr) := by
  match h with
  | .nil _ => exact .nil (Nat.le_refl i)
  | .last he _ => exact he.row
  | .cons he _ hes => exact (he.row.widen (Nat.le_refl i) (Nat.le_succ _)).append hes.row

theorem PrimaryAt.row {i j : Nat} {e : Expr} (h : PrimaryAt T i j e) :
    Row T i j [.expr e] := by
  have hlt := h.lt
  match h with
  | .literal _ => exact .expr (.token rfl rfl nofun) rfl hlt
  | .path h _ hpath =>
    have hrow := hpath.row h (by omega)
    refine .expr hrow ?_ hlt
    rw [Expr.span, hpath.span_eq, h.2.2]
    exact TokenRange.clamped_of_le (Nat.le_of_lt hlt)
  | .call h hargs =>
    exact .expr (h.row.append hargs.row) (TokenRange.clamped_of_le (Nat.le_of_lt hlt)) hlt
  | .ident h _ _ => exact .expr h.row (by rw [Expr.span, h.2.2]; rfl) hlt
  | .unit _ _ =>
    exact .expr (.nil (Nat.le_of_lt hlt)) (TokenRange.clamped_of_le (Nat.le_of_lt hlt)) hlt
  | .grouping _ he _ => exact he.row.widen (Nat.le_succ i) (Nat.le_succ _)
  | .tuple _ he _ hes =>
    refine .expr ?_ (TokenRange.clamped_of_le (Nat.le_of_lt hlt)) hlt
    exact (he.row.widen (Nat.le_succ i) (Nat.le_succ _)).append
      (hes.row.widen (Nat.le_refl _) (Nat.le_succ _))
  | .block h => exact .expr h.row h.span_eq hlt
  | .compute hheader hbody =>
    have hrow := hbody.row
    obtain ⟨h₁, h₂, h₃⟩ := hrow.within
    have hk := hheader.lt
    have hchildren := hheader.row.append (hrow.tight.widen h₁ (Nat.le_refl _))
    exact Row.widen (.expr hchildren rfl (by omega)) (Nat.le_refl i) h₃
  | .action hheader hbody _ =>
    refine .expr (hheader.row.append ?_) ?_ hlt
    · exact .expr hbody.row hbody.span_eq hbody.lt
    · show (⟨i, (Block.span _).stop⟩ : TokenRange) = _
      rw [hbody.span_eq]

theorem BlockAt.row {i j : Nat} {b : Block} (h : BlockAt T i j b) : Row T i j [.block b] := by
  have hlt := h.lt
  have hspan := h.span_eq
  match h with
  | .mk hopen hitems hclose =>
    obtain ⟨hrow, k, htile, hend⟩ := hitems.row
    refine .parent (hrow.widen (Nat.le_succ i) (Nat.le_succ _)) hspan hlt rfl ?_
    rintro _ ⟨⟩
    refine ⟨?_, ?_, k, ?_, ?_⟩
    · rw [hspan]
      exact hopen
    · rw [hspan]
      exact hclose
    · rw [hspan]
      exact htile
    · intro htail
      rw [hspan, hend htail]

theorem ItemsAt.row {i j : Nat} {stmts : List Stmt} {tail : Option Expr}
    (h : ItemsAt T i j stmts tail) :
    Row T i j (stmts.map .stmt ++ tail.toList.map .expr) ∧
      ∃ k, Stmt.Tile i k stmts ∧ (tail = none → k = j) := by
  match h with
  | .nil _ => exact ⟨.nil (Nat.le_refl i), i, rfl, fun _ => rfl⟩
  | .tail _ he _ => exact ⟨he.row, i, rfl, nofun⟩
  | .functionTail _ _ he _ => exact ⟨he.row, i, rfl, nofun⟩
  | .stmt hs _ hstmts =>
    obtain ⟨hrow, k, htile, hend⟩ := hstmts.row
    have hspan := hs.row.2
    refine ⟨hs.row.1.append hrow, k, ⟨?_, ?_⟩, hend⟩
    · rw [hspan]
    · rw [hspan]
      exact htile

/-- A statement spans all its tokens. -/
theorem StmtAt.row {i j : Nat} {stmt : Stmt} (h : StmtAt T i j stmt) :
    Row T i j [.stmt stmt] ∧ stmt.span = ⟨i, j⟩ := by
  have hlt := h.lt
  -- every form takes its span from its first and last token
  have hspan : stmt.span = ⟨i, j⟩ := by
    match h with
    | .expr .. => exact TokenRange.clamped_of_le (Nat.le_of_lt hlt)
    | .binding .. => exact TokenRange.clamped_of_le (Nat.le_of_lt hlt)
    | .function _ hbody _ =>
      show (⟨i, (Block.span _).stop⟩ : TokenRange) = _
      rw [hbody.span_eq]
    | .returning .. => exact TokenRange.clamped_of_le (Nat.le_of_lt hlt)
    | .importResource .. => exact TokenRange.clamped_of_le (Nat.le_of_lt hlt)
    | .importPath .. => exact TokenRange.clamped_of_le (Nat.le_of_lt hlt)
  refine ⟨.stmt ?_ hspan hlt, hspan⟩
  match h with
  | .expr _ he _ _ => exact he.row.widen (Nat.le_refl i) (Nat.le_succ _)
  | .binding _ _ hk h _ hvalue _ =>
    exact (h.row.widen (by omega) (Nat.le_succ _)).append
      (hvalue.row.widen (Nat.le_refl _) (Nat.le_succ _))
  | .function hheader hbody _ => exact hheader.row.append hbody.row
  | .returning _ hvalue _ => exact hvalue.row.widen (Nat.le_succ i) (Nat.le_succ _)
  | .importResource _ _ _ _ hx _ =>
    have hresource : Row T (i + 2) (i + 3)
        [.literal ⟨.string, (T (i + 2)).value, .single (i + 2)⟩] := .token rfl rfl nofun
    exact (hresource.widen (by omega) (Nat.le_succ _)).append
      (hx.row.widen (Nat.le_refl _) (by omega))
  | .importPath _ hx _ hpath _ =>
    exact (hpath.row hx (by omega)).widen (Nat.le_succ i) (Nat.le_succ _)

end

theorem ProgramAt.row {stmts : List Stmt} (h : ProgramAt T i j stmts) :
    Row T i j (stmts.map .stmt) ∧ Stmt.Tile i j stmts := by
  induction h with
  | nil _ => exact ⟨.nil (Nat.le_refl _), rfl⟩
  | cons hs _ ih =>
    obtain ⟨hrow, hspan⟩ := hs.row
    refine ⟨hrow.append ih.1, ?_, ?_⟩
    · rw [hspan]
    · rw [hspan]
      exact ih.2

/-- Whatever lies below a node lies inside its span. -/
theorem Placed.contains {target : Node} (h : node.Contains target) :
    Everywhere (Placed T) node →
      node.span.start ≤ target.span.start ∧ target.span.stop ≤ node.span.stop := by
  induction h with
  | self node =>
    intro _
    exact ⟨Nat.le_refl _, Nat.le_refl _⟩
  | step hchild _ ih =>
    intro hnode
    obtain ⟨h₁, h₂⟩ := hnode.here.inside _ hchild
    obtain ⟨h₃, h₄⟩ := ih (hnode.child hchild)
    exact ⟨Nat.le_trans h₁ h₃, Nat.le_trans h₄ h₂⟩

/-- What holds of the nodes of a program whose statements stand in a row. -/
theorem Row.placed {program : Program} (h : Row T i j (program.body.map .stmt))
    (hnode : program.Contains node) : Placed T node ∧ node.span.Within i j := by
  obtain ⟨s, hs, hcontains⟩ := hnode
  have hstmt : Node.stmt s ∈ program.body.map Node.stmt := List.mem_map_of_mem hs
  have hall := h.everywhere _ hstmt
  obtain ⟨h₁, h₂⟩ := h.inside _ hstmt
  obtain ⟨h₃, h₄⟩ := Placed.contains hcontains hall
  have hplaced := hall node hcontains
  exact ⟨hplaced, Nat.le_trans h₁ h₃, hplaced.nonempty, Nat.le_trans h₄ h₂⟩

end Grammar

/-- A token before the first end mark is of the kind that the stream shows there. -/
theorem TokenStream.kind_getElem? {tokens : List Token} {i : Nat}
    (hi : i < tokens.findIdx (·.kind == .endMark)) :
    tokens[i]?.map (·.kind) = some ((ofTokens tokens).lexeme i).kind := by
  have hlength : i < tokens.length := Nat.lt_of_lt_of_le hi List.findIdx_le_length
  have htoken := List.getElem?_eq_getElem hlength
  rw [lexeme_ofTokens htoken, htoken]
  rfl

namespace Stmt

/-- Statements without gaps end where the last of them does. -/
theorem Tile.stop_getLast {i j : Nat} {stmts : List Stmt} {last : Stmt} (h : Tile i j stmts)
    (hlast : stmts.getLast? = some last) : last.span.stop = j := by
  induction stmts generalizing i with
  | nil => cases hlast
  | cons s ss ih =>
    obtain ⟨-, hrest⟩ := h
    cases ss with
    | nil =>
      cases hlast
      exact hrest
    | cons s' ss => exact ih hrest (by simpa using hlast)

end Stmt

namespace Program

open Grammar

/-- The span of a program whose statements have no gaps. -/
theorem span_ofBody {body : List Stmt} {n : Nat} (h : Stmt.Tile 0 n body) :
    (ofBody body).span = ⟨0, n⟩ := by
  cases body with
  | nil =>
    obtain rfl : 0 = n := h
    rfl
  | cons first rest =>
    obtain ⟨last, hlast⟩ : ∃ last, (first :: rest).getLast? = some last :=
      ⟨_, List.getLast?_eq_some_getLast (List.cons_ne_nil first rest)⟩
    have hspan : (ofBody (first :: rest)).span = first.span.upTo last.span := by
      simp only [ofBody, List.head?_cons, hlast]
    rw [hspan, TokenRange.upTo, h.1, h.stop_getLast hlast]
    exact TokenRange.clamped_of_le (Nat.zero_le n)

/-- A program that is accepted reaches from its first statement to its last one. -/
theorem eq_ofBody_of_ofTokens {tokens : List Token} {program : Program}
    (h : ofTokens tokens = .ok program) : program = ofBody program.body := by
  unfold ofTokens at h
  split at h
  · split at h
    · cases h
      rw [body_ofBody]
    · cases h
  · cases h
  · cases h

/-- No node of an accepted program is empty, and none goes beyond the end mark. -/
theorem within_of_ofTokens {tokens : List Token} {program : Program}
    (h : ofTokens tokens = .ok program) {node : Node} (hnode : program.Contains node) :
    node.span.Within 0 (tokens.findIdx (·.kind == .endMark)) := by
  have hprogram := programAt_of_ofTokens h
  rw [TokenStream.limit_ofTokens] at hprogram
  exact (hprogram.row.1.placed hnode).2

/-- An accepted program spans all tokens up to the end mark, and some if it has statements. -/
theorem within_span_of_ofTokens {tokens : List Token} {program : Program}
    (h : ofTokens tokens = .ok program) (hbody : program.body ≠ []) :
    program.span.Within 0 (tokens.findIdx (·.kind == .endMark)) := by
  have hprogram := programAt_of_ofTokens h
  rw [TokenStream.limit_ofTokens] at hprogram
  have hspan := span_ofBody hprogram.row.2
  rw [← eq_ofBody_of_ofTokens h] at hspan
  obtain ⟨stmt, stmts, hstmts⟩ := List.exists_cons_of_ne_nil hbody
  obtain ⟨-, hlt, hle⟩ := within_of_ofTokens h ⟨stmt, by simp [hstmts], .self (.stmt stmt)⟩
  rw [hspan]
  exact ⟨Nat.le_refl 0, Nat.lt_of_lt_of_le (Nat.zero_lt_of_lt hlt) hle, Nat.le_refl _⟩

/-- Where the spans of an accepted program lie. Every node has a span that is not empty and ends
before the first end mark; its children lie inside it, one behind the other; names, literals,
operators and wildcards are one token. The statements follow each other without a gap from the
first token to the end mark, and so do the statements of a block, behind its opening brace and, if
it has no value, up to its closing one. -/
theorem ofTokens_spans {tokens : List Token} {program : Program}
    (h : ofTokens tokens = .ok program) :
    (∀ node, program.Contains node →
      node.span.Within 0 (tokens.findIdx (·.kind == .endMark)) ∧
      (∀ child ∈ node.children, child.span.Within node.span.start node.span.stop) ∧
      node.children.Pairwise (fun a b => a.span.stop ≤ b.span.start) ∧
      (node.isToken = true → node.span = .single node.span.start)) ∧
    Stmt.Tile 0 (tokens.findIdx (·.kind == .endMark)) program.body ∧
    program.span = ⟨0, tokens.findIdx (·.kind == .endMark)⟩ ∧
    ∀ b, program.Contains (.block b) →
      tokens[b.span.start]?.map (·.kind) = some .openCurly ∧
      tokens[b.span.stop - 1]?.map (·.kind) = some .closeCurly ∧
      ∃ k, Stmt.Tile (b.span.start + 1) k b.stmts ∧ (b.tail = none → k + 1 = b.span.stop) := by
  have hprogram := programAt_of_ofTokens h
  rw [TokenStream.limit_ofTokens] at hprogram
  obtain ⟨hrow, htile⟩ := hprogram.row
  refine ⟨?_, htile, ?_, ?_⟩
  · intro node hnode
    obtain ⟨hplaced, hwithin⟩ := hrow.placed hnode
    refine ⟨hwithin, ?_, hplaced.ordered, hplaced.single⟩
    intro child hchild
    obtain ⟨h₁, h₂⟩ := hplaced.inside child hchild
    exact ⟨h₁, (hrow.placed (hnode.child hchild)).1.nonempty, h₂⟩
  · rw [eq_ofBody_of_ofTokens h]
    exact span_ofBody htile
  · intro b hb
    obtain ⟨hplaced, -, hlt, hle⟩ := hrow.placed hb
    obtain ⟨hopen, hclose, htiled⟩ := hplaced.tiled b rfl
    have hlt' : b.span.start < b.span.stop := hlt
    have hle' : b.span.stop ≤ tokens.findIdx (·.kind == .endMark) := hle
    refine ⟨?_, ?_, htiled⟩
    · rw [TokenStream.kind_getElem? (by omega)]
      exact congrArg some hopen
    · rw [TokenStream.kind_getElem? (by omega)]
      exact congrArg some hclose

/-- The tokens of a block with a call in it, as a statement, where what is called stands in
parentheses. -/
def blockTokens : List Token :=
  [⟨.fixed .openCurly, ⟨0, 1⟩, 0⟩, ⟨.fixed .openParen, ⟨2, 3⟩, 0⟩, ⟨.word "f", ⟨3, 4⟩, 0⟩,
    ⟨.fixed .closeParen, ⟨4, 5⟩, 0⟩, ⟨.fixed .openParen, ⟨5, 6⟩, 0⟩,
    ⟨.fixed .closeParen, ⟨6, 7⟩, 0⟩, ⟨.fixed .semicolon, ⟨7, 8⟩, 0⟩,
    ⟨.fixed .closeCurly, ⟨9, 10⟩, 0⟩, ⟨.fixed .semicolon, ⟨10, 11⟩, 0⟩]

/-- The statement in the block starts behind the brace, though the call in it does not. -/
theorem ofTokens_spans_block :
    ∃ program, ofTokens blockTokens = .ok program ∧
      program.body.map (fun s => (s.span, (Node.stmt s).children.map Node.span)) =
        [(⟨0, 9⟩, [⟨0, 8⟩])] ∧
      Stmt.Tile 0 9 program.body ∧ program.span = ⟨0, 9⟩ := by
  have hspans : (ofTokens blockTokens).toOption.map (·.body.map fun s =>
      (s.span, (Node.stmt s).children.map Node.span)) = some [(⟨0, 9⟩, [⟨0, 8⟩])] := by
    decide +kernel
  cases hrun : ofTokens blockTokens with
  | error e =>
    rw [hrun] at hspans
    cases hspans
  | ok program =>
    rw [hrun] at hspans
    obtain ⟨-, htile, hspan, -⟩ := ofTokens_spans hrun
    exact ⟨program, rfl, Option.some.inj hspans, htile, hspan⟩

end Program

end FrontEnd
