import FrontEnd.Proofs.Outlining.Basic
import FrontEnd.Proofs.Outlining.Holes
import FrontEnd.Proofs.RoundTrip

/-! What outlines tell apart. The outline of a program that was read shows the whole tree but for
its spans and its holes: a name that is written `_` looks like one that was left out. -/
namespace FrontEnd

namespace Grammar

section

variable {L : Lexeme → Prop} {N : Expr → Prop}

theorem ProperName.erase_eq {x : Ident} (h : ProperName L x) :
    x.erase = ⟨x.name, none, .zero⟩ := by
  rw [← h.keyword]
  rfl

theorem ProperName.erase_congr {x y : Ident} (hx : ProperName L x) (hy : ProperName L y)
    (h : x.name = y.name) : x.erase = y.erase := by
  rw [hx.erase_eq, hy.erase_eq, h]

theorem map_erase_congr {xs ys : List Ident} (hx : ∀ x ∈ xs, ProperName L x)
    (hy : ∀ y ∈ ys, ProperName L y) (h : xs.map (·.name) = ys.map (·.name)) :
    xs.map Ident.erase = ys.map Ident.erase := by
  have hnamed : ∀ {zs : List Ident}, (∀ z ∈ zs, ProperName L z) →
      zs.map Ident.erase = (zs.map (·.name)).map fun name => ⟨name, none, .zero⟩ := by
    intro zs hz
    rw [List.map_map]
    exact List.map_congr_left fun z hmem => (hz z hmem).erase_eq
  rw [hnamed hx, hnamed hy, h]

theorem dropHole_erase_congr {name name' : Option Ident} (hname : ∀ x ∈ name, ProperName L x)
    (hname' : ∀ x ∈ name', ProperName L x) (h : Outline.optional name = Outline.optional name') :
    (Ident.dropHole name).map Ident.erase = (Ident.dropHole name').map Ident.erase := by
  have hnamed : ∀ {name : Option Ident}, (∀ x ∈ name, ProperName L x) →
      (Ident.dropHole name).map Ident.erase =
        ((Ident.dropHole name).map (·.name)).map fun name => ⟨name, none, .zero⟩ := by
    intro name hname
    cases name with
    | none => rfl
    | some x =>
      rw [Ident.dropHole]
      split
      · rfl
      · exact congrArg some (hname x rfl).erase_eq
  rw [hnamed hname, hnamed hname', Ident.dropHole_eq_of_optional_eq h]

mutual

/-- A path that may stand in an expression may be imported. -/
theorem ProperPath.importing {place : PathPlace} {p : Path} (h : ProperPath L place p) :
    ProperPath L .importing p := by
  match h with
  | .mk hsegment htarget halias =>
    exact .mk hsegment htarget.importing fun x hx => ⟨rfl, (halias x hx).2⟩

theorem ProperTarget.importing {place : PathPlace} {target : PathTarget} {aliasable : Bool}
    (h : ProperTarget L place target aliasable) : ProperTarget L .importing target aliasable := by
  match h with
  | .item hx => exact .item hx
  | .nested hnext => exact .nested hnext.importing
  | .wildcard => exact .wildcard
  | .group hne hentries => exact .group hne hentries

end

/-- The parts of what follows a segment are proper. -/
def ProperParts (L : Lexeme → Prop) : PathTarget → Prop
  | .leaf => True
  | .item x => ProperName L x
  | .nested next => ProperEntry L next
  | .wildcard _ => True
  | .group entries => ∀ entry ∈ entries, ProperEntry L entry

theorem ProperEntry.parts {segment : Ident} {target : PathTarget} {localName : Option Ident}
    {span : TokenRange} (h : ProperEntry L ⟨segment, target, localName, span⟩) :
    ProperName L segment ∧ ProperParts L target ∧ ∀ x ∈ localName, ProperName L x := by
  cases h with
  | leaf hsegment halias => exact ⟨hsegment, trivial, fun x hx => (halias x hx).2.2⟩
  | path h =>
    cases h with
    | mk hsegment htarget halias =>
      refine ⟨hsegment, ?_, fun x hx => (halias x hx).2.2⟩
      cases htarget with
      | item hx => exact hx
      | nested hnext => exact .path hnext
      | wildcard => trivial
      | group _ hentries => exact hentries

/-- The parts of a function are proper, of whichever kind it is. -/
theorem ProperExpr.function_parts {kind : FunctionKind} {name : Option Ident}
    {params : List Ident} {body : Expr} {span : TokenRange}
    (h : ProperExpr L N (.function kind name params body span)) :
    (∀ x ∈ name, ProperName L x) ∧ (∀ x ∈ params, ProperName L x) ∧ ProperExpr L N body := by
  cases h with
  | compute hname hparams hbody => exact ⟨hname, hparams, hbody⟩
  | action hname hparams hbody _ => exact ⟨hname, hparams, .block hbody⟩

end

end Grammar

namespace Outline

open Grammar Lexical

variable {N : Expr → Prop}

/-! ## Heads of the nodes -/

/-- The head of an expression, if its outline is a list. -/
def exprHead? : Expr → Option Head
  | .literal l => some (.literal l.kind)
  | .ident _ => none
  | .binary _ op _ _ => some (.operation op.operation)
  | .unary op _ _ => some (.operation op.operation)
  | .block _ => some .block
  | .function .. => some .function
  | .call .. => some .call
  | .callValue .. => some .callValue
  | .tuple .. => some .tuple
  | .path _ => some .path

def stmtHead : Stmt → Head
  | .expr .. => .statement
  | .binding .. => .binding
  | .function .. => .declaration
  | .returning .. => .returning
  | .importResource .. => .importResource
  | .importPath .. => .importPath

def targetHead? : PathTarget → Option Head
  | .leaf => none
  | .item _ => some .item
  | .nested _ => some .path
  | .wildcard _ => none
  | .group _ => some .group

theorem exprHead?_ne_stmtHead (e : Expr) (s : Stmt) : exprHead? e ≠ some (stmtHead s) := by
  cases s <;> cases e <;> nofun

theorem opens_path (p : Path) : Opens (path p).toList (some .path) := by
  obtain ⟨segment, target, localName, span⟩ := p
  exact opens_node .path _ _

theorem opens_expr {e : Expr} (he : ProperExpr Written N e) :
    Opens (expr e).toList (exprHead? e) := by
  cases e with
  | literal l => exact opens_node (.literal l.kind) _ _
  | ident x =>
    cases he with
    | ident hx => exact opens_word hx.written
  | binary left op right span => exact opens_node (.operation op.operation) _ _
  | unary op e span => exact opens_node (.operation op.operation) _ _
  | block b =>
    obtain ⟨body, value, span⟩ := b
    exact opens_node .block _ _
  | function kind name params body span => exact opens_node .function _ _
  | call callee args span => exact opens_node .call _ _
  | callValue callee args span => exact opens_node .callValue _ _
  | tuple elements span => exact opens_node .tuple _ _
  | path p => exact opens_path p

theorem opens_stmt (s : Stmt) : Opens (stmt s).toList (some (stmtHead s)) := by
  cases s with
  | expr e span => exact opens_node .statement _ _
  | binding mutable name value span => exact opens_node .binding _ _
  | function kind name params body span => exact opens_node .declaration _ _
  | returning value span => exact opens_node .returning _ _
  | importResource resource localName span => exact opens_node .importResource _ _
  | importPath p span => exact opens_node .importPath _ _

theorem opens_target (target : PathTarget) :
    Opens (pathTarget target).toList (targetHead? target) := by
  cases target with
  | leaf => exact .plain (show "leaf".toList = 'l' :: _ from rfl) (by decide) (by decide)
  | item x => exact opens_node .item _ _
  | nested next => exact opens_path next
  | wildcard span => exact .plain (show "*".toList = '*' :: _ from rfl) (by decide) (by decide)
  | group entries => exact opens_node .group _ _

theorem opens_paths (entries : List Path) : ∀ part ∈ paths entries, ∃ h?, Opens part.toList h? := by
  induction entries with
  | nil => simp [paths]
  | cons entry entries ih =>
    rw [paths, List.forall_mem_cons]
    exact ⟨⟨_, opens_path entry⟩, ih⟩

theorem opens_exprs {es : List Expr} (hes : ∀ e ∈ es, ProperExpr Written N e) :
    ∀ part ∈ exprs es, ∃ h?, Opens part.toList h? := by
  induction es with
  | nil => simp [exprs]
  | cons e es ih =>
    obtain ⟨he, hes⟩ := List.forall_mem_cons.mp hes
    rw [exprs, List.forall_mem_cons]
    exact ⟨⟨_, opens_expr he⟩, ih hes⟩

theorem opens_items {value : Option Expr} (hvalue : ∀ e ∈ value, ProperExpr Written N e)
    (ss : List Stmt) : ∀ part ∈ stmts ss ++ tail value, ∃ h?, Opens part.toList h? := by
  induction ss with
  | nil =>
    cases value with
    | none => simp [stmts, tail]
    | some e => simpa [stmts, tail] using ⟨_, opens_expr (hvalue e rfl)⟩
  | cons s ss ih =>
    rw [stmts, List.cons_append, List.forall_mem_cons]
    exact ⟨⟨_, opens_stmt s⟩, ih⟩

/-! ## Nodes that look alike -/

theorem cancels_literal (l l' : Literal) :
    Cancels (literal l).toList (literal l').toList (l.erase = l'.erase) := by
  obtain ⟨kind, value, span⟩ := l
  obtain ⟨kind', value', span'⟩ := l'
  apply (opens_node (.literal kind) _ _).cancels (opens_node (.literal kind') _ _)
  rintro ⟨⟩
  refine ((Cancels.quoted value value').cons .nil).node.mono ?_
  rintro ⟨rfl, -⟩
  rfl

/-- A name that may be left out is marked by a word. -/
theorem written_optional {name : Option Ident} (h : ∀ x ∈ name, ProperName Written x) :
    Written (.word (optional name)) := by
  cases name with
  | none => exact written_word (c := '_') (by decide) []
  | some x => exact (h x rfl).written

theorem cancels_optional {name name' : Option Ident} (h : ∀ x ∈ name, ProperName Written x)
    (h' : ∀ x ∈ name', ProperName Written x) :
    Cancels (optional name).toList (optional name').toList
      ((Ident.dropHole name).map Ident.erase = (Ident.dropHole name').map Ident.erase) :=
  (Cancels.word (written_optional h) (written_optional h')).mono (dropHole_erase_congr h h')

theorem cancels_name {x y : Ident} (hx : ProperName Written x) (hy : ProperName Written y) :
    Cancels x.name.toList y.name.toList (x.erase = y.erase) :=
  (Cancels.word hx.written hy.written).mono (hx.erase_congr hy)

theorem cancels_names {xs ys : List Ident} (hx : ∀ x ∈ xs, ProperName Written x)
    (hy : ∀ y ∈ ys, ProperName Written y) :
    Cancels (names xs).toList (names ys).toList (xs.map Ident.erase = ys.map Ident.erase) :=
  (Cancels.names (fun x hmem => (hx x hmem).written) fun y hmem => (hy y hmem).written).mono
    (map_erase_congr hx hy)

/-- The two targets that are shown as plain words. -/
theorem cancels_leaf_wildcard {P : Prop} : Cancels "leaf".toList "*".toList P :=
  .of_head_ne (c := 'l') (d := '*') (by decide)

/-! ## Paths

The predicates from here on are about one tree against all others. Each has a lemma for every form
of the tree, which asks for the predicates of the parts. -/

/-- Where the outline of the path stands, that of another one stands only if the two are the same
up to spans and holes. -/
def TellsPath (p : Path) : Prop :=
  ProperEntry Written p → ∀ p', ProperEntry Written p' →
    Cancels (path p).toList (path p').toList (p.dropHoles.erase = p'.dropHoles.erase)

def TellsTarget (target : PathTarget) : Prop :=
  ProperParts Written target → ∀ target', ProperParts Written target' →
    Cancels (pathTarget target).toList (pathTarget target').toList
      (target.dropHoles.erase = target'.dropHoles.erase)

/-- As `TellsPath`, for the entries of a group. -/
def TellsPaths (entries : List Path) : Prop :=
  (∀ entry ∈ entries, ProperEntry Written entry) → ∀ entries',
    (∀ entry ∈ entries', ProperEntry Written entry) →
      Cancels (closing .blank (paths entries)) (closing .blank (paths entries'))
        (Path.eraseEntries (Path.dropHolesEntries entries) =
          Path.eraseEntries (Path.dropHolesEntries entries'))

theorem TellsPath.mk {segment : Ident} {target : PathTarget} {localName : Option Ident}
    {span : TokenRange} (h : TellsTarget target) :
    TellsPath ⟨segment, target, localName, span⟩ := by
  intro hp p' hp'
  obtain ⟨segment', target', localName', span'⟩ := p'
  obtain ⟨hsegment, htarget, halias⟩ := hp.parts
  obtain ⟨hsegment', htarget', halias'⟩ := hp'.parts
  have hlabelled := (cancels_optional halias halias').labelled "as="
  refine ((cancels_name hsegment hsegment').cons
    ((h htarget target' htarget').cons (hlabelled.cons .nil))).node.mono ?_
  intro ⟨h₁, h₂, h₃, _⟩
  simp only [Path.dropHoles, Path.erase, h₁, h₂, h₃]

namespace TellsTarget

/-- Outlines that agree have one head; only the plain words have none to tell them apart. -/
theorem of_head {target : PathTarget} (h : ProperParts Written target → ∀ target',
    ProperParts Written target' → targetHead? target = targetHead? target' →
      Cancels (pathTarget target).toList (pathTarget target').toList
        (target.dropHoles.erase = target'.dropHoles.erase)) : TellsTarget target :=
  fun hproper target' hproper' =>
    (opens_target target).cancels (opens_target target') (h hproper target' hproper')

theorem leaf : TellsTarget .leaf := by
  apply of_head
  intro _ target' _ hhead
  cases target' with
  | leaf => exact (Cancels.refl _).mono fun _ => rfl
  | wildcard span => exact cancels_leaf_wildcard
  | _ => cases hhead

theorem wildcard (span : TokenRange) : TellsTarget (.wildcard span) := by
  apply of_head
  intro _ target' _ hhead
  cases target' with
  | leaf => exact cancels_leaf_wildcard.symm
  | wildcard span' => exact (Cancels.refl _).mono fun _ => rfl
  | _ => cases hhead

theorem item (x : Ident) : TellsTarget (.item x) := by
  apply of_head
  intro hx target' hx' hhead
  cases target' with
  | item x' =>
    refine ((cancels_name hx hx').cons .nil).node.mono ?_
    intro ⟨hsame, _⟩
    simp only [PathTarget.dropHoles, PathTarget.erase, hsame]
  | _ => cases hhead

theorem nested {next : Path} (h : TellsPath next) : TellsTarget (.nested next) := by
  apply of_head
  intro hnext target' hnext' hhead
  cases target' with
  | nested next' =>
    refine (h hnext next' hnext').mono ?_
    intro hsame
    simp only [PathTarget.dropHoles, PathTarget.erase, hsame]
  | _ => cases hhead

theorem group {entries : List Path} (h : TellsPaths entries) : TellsTarget (.group entries) := by
  apply of_head
  intro hentries target' hentries' hhead
  cases target' with
  | group entries' =>
    have hlist := (h hentries entries' hentries').spaced (opens_paths entries)
      (opens_paths entries')
    refine hlist.node.mono ?_
    intro hsame
    simp only [PathTarget.dropHoles, PathTarget.erase, hsame]
  | _ => cases hhead

end TellsTarget

namespace TellsPaths

theorem nil : TellsPaths [] := by
  intro _ entries' _
  cases entries' with
  | nil => exact Cancels.nil.mono fun _ => rfl
  | cons entry' entries' => exact .nil_cons

theorem cons {entry : Path} {entries : List Path} (h : TellsPath entry)
    (hs : TellsPaths entries) : TellsPaths (entry :: entries) := by
  intro hproper entries' hproper'
  cases entries' with
  | nil => exact Cancels.nil_cons.symm
  | cons entry' entries' =>
    obtain ⟨hfirst, hrest⟩ := List.forall_mem_cons.mp hproper
    obtain ⟨hfirst', hrest'⟩ := List.forall_mem_cons.mp hproper'
    refine ((h hfirst entry' hfirst').cons (hs hrest entries' hrest')).mono ?_
    intro ⟨h₁, h₂⟩
    simp only [Path.dropHolesEntries, Path.eraseEntries, h₁, h₂]

end TellsPaths

mutual

theorem tellsPath : (p : Path) → TellsPath p
  | ⟨_, target, _, _⟩ => .mk (tellsTarget target)
termination_by structural p => p

theorem tellsTarget : (target : PathTarget) → TellsTarget target
  | .leaf => .leaf
  | .item x => .item x
  | .nested next => .nested (tellsPath next)
  | .wildcard span => .wildcard span
  | .group entries => .group (tellsPaths entries)
termination_by structural target => target

theorem tellsPaths : (entries : List Path) → TellsPaths entries
  | [] => .nil
  | entry :: entries => .cons (tellsPath entry) (tellsPaths entries)
termination_by structural entries => entries

end

/-! ## Expressions, blocks and statements -/

/-- Operands behind their operator. -/
theorem Cancels.operation {op op' : Operator} {parts parts' : List String} {P : Prop}
    (h : Cancels (closing .blank parts) (closing .blank parts') P)
    (hhead : some (Head.operation op.operation) = some (.operation op'.operation)) :
    Cancels (Outline.node (op.operation.name :: parts)).toList
      (Outline.node (op'.operation.name :: parts')).toList (op.erase = op'.erase ∧ P) := by
  have hsame : op.operation = op'.operation := Head.operation.inj (Option.some.inj hhead)
  rw [hsame]
  refine h.node.mono ?_
  intro hP
  rw [Operator.erase, Operator.erase, hsame]
  exact ⟨rfl, hP⟩

section

variable (N : Expr → Prop)

/-- Where the outline of the expression stands, that of another one stands only if the two are
the same up to spans and holes. -/
def TellsExpr (e : Expr) : Prop :=
  ProperExpr Written N e → ∀ e', ProperExpr Written N e' →
    Cancels (expr e).toList (expr e').toList (e.dropHoles.erase = e'.dropHoles.erase)

/-- As `TellsExpr`, for expressions that stand in a list. -/
def TellsExprs (es : List Expr) : Prop :=
  (∀ e ∈ es, ProperExpr Written N e) → ∀ es', (∀ e ∈ es', ProperExpr Written N e) →
    Cancels (closing .blank (exprs es)) (closing .blank (exprs es'))
      (Tree.eraseExprs (Tree.dropHolesExprs es) = Tree.eraseExprs (Tree.dropHolesExprs es'))

def TellsBlock (b : Block) : Prop :=
  ProperBlock Written N b → ∀ b', ProperBlock Written N b' →
    Cancels (block b).toList (block b').toList (b.dropHoles.erase = b'.dropHoles.erase)

/-- As `TellsExpr`, for the value of a block, which is there on both sides or on none. -/
def TellsTail (value : Option Expr) : Prop :=
  (∀ e ∈ value, ProperExpr Written N e) → ∀ value', (∀ e ∈ value', ProperExpr Written N e) →
    value.isSome = value'.isSome →
      Cancels (closing .blank (tail value)) (closing .blank (tail value'))
        (Tree.eraseTail (Tree.dropHolesTail value) = Tree.eraseTail (Tree.dropHolesTail value'))

def TellsStmt (s : Stmt) : Prop :=
  ProperStmt Written N s → ∀ s', ProperStmt Written N s' →
    Cancels (stmt s).toList (stmt s').toList (s.dropHoles.erase = s'.dropHoles.erase)

/-- As `TellsExpr`, for statements with the value of their block behind them. -/
def TellsStmts (ss : List Stmt) : Prop :=
  (∀ s ∈ ss, ProperStmt Written N s) → ∀ ss', (∀ s ∈ ss', ProperStmt Written N s) →
    ∀ value value' : Option Expr, (∀ e ∈ value, ProperExpr Written N e) →
      (∀ e ∈ value', ProperExpr Written N e) → value.isSome = value'.isSome → ∀ Q : Prop,
        Cancels (closing .blank (tail value)) (closing .blank (tail value')) Q →
          Cancels (closing .blank (stmts ss ++ tail value))
            (closing .blank (stmts ss' ++ tail value'))
            (Tree.eraseStmts (Tree.dropHolesStmts ss) =
              Tree.eraseStmts (Tree.dropHolesStmts ss') ∧ Q)

end

namespace TellsExprs

theorem nil : TellsExprs N [] := by
  intro _ es' _
  cases es' with
  | nil => exact Cancels.nil.mono fun _ => rfl
  | cons e' es' => exact .nil_cons

theorem cons {e : Expr} {es : List Expr} (he : TellsExpr N e) (hes : TellsExprs N es) :
    TellsExprs N (e :: es) := by
  intro hproper es' hproper'
  cases es' with
  | nil => exact Cancels.nil_cons.symm
  | cons e' es' =>
    obtain ⟨hfirst, hrest⟩ := List.forall_mem_cons.mp hproper
    obtain ⟨hfirst', hrest'⟩ := List.forall_mem_cons.mp hproper'
    refine ((he hfirst e' hfirst').cons (hes hrest es' hrest')).mono ?_
    intro ⟨h₁, h₂⟩
    simp only [Tree.dropHolesExprs, Tree.eraseExprs, h₁, h₂]

/-- Expressions in a list of their own, as arguments and elements are shown. -/
theorem spaced {es es' : List Expr} (h : TellsExprs N es)
    (hes : ∀ e ∈ es, ProperExpr Written N e) (hes' : ∀ e ∈ es', ProperExpr Written N e) :
    Cancels (closing .blank [Outline.spaced (exprs es)])
      (closing .blank [Outline.spaced (exprs es')])
      (Tree.eraseExprs (Tree.dropHolesExprs es) = Tree.eraseExprs (Tree.dropHolesExprs es')) :=
  (h hes es' hes').spaced (opens_exprs hes) (opens_exprs hes')

end TellsExprs

/-! ### Expressions -/

namespace TellsExpr

/-- Outlines that agree have one head, and a head belongs to one kind of node, operators apart. -/
theorem of_head {e : Expr} (h : ProperExpr Written N e → ∀ e', ProperExpr Written N e' →
    exprHead? e = exprHead? e' →
      Cancels (expr e).toList (expr e').toList (e.dropHoles.erase = e'.dropHoles.erase)) :
    TellsExpr N e :=
  fun he e' he' => (opens_expr he).cancels (opens_expr he') (h he e' he')

theorem literal (l : Literal) : TellsExpr N (.literal l) := by
  apply of_head
  intro _ e' he' hhead
  cases he' with
  | literal _ =>
    refine (cancels_literal _ _).mono ?_
    intro hl
    simp only [Expr.dropHoles, Expr.erase, hl]
  | _ => cases hhead

theorem ident (x : Ident) : TellsExpr N (.ident x) := by
  apply of_head
  intro he e' he' hhead
  cases he with
  | ident hx =>
    cases he' with
    | ident hx' =>
      refine (cancels_name hx hx').mono ?_
      intro hname
      simp only [Expr.dropHoles, Expr.erase, hname]
    | _ => cases hhead

theorem path (p : Path) : TellsExpr N (.path p) := by
  apply of_head
  intro he e' he' hhead
  cases he with
  | path hp =>
    cases he' with
    | path hp' =>
      refine (tellsPath p (.path hp.importing) _ (.path hp'.importing)).mono ?_
      intro hpath
      simp only [Expr.dropHoles, Expr.erase, hpath]
    | _ => cases hhead

theorem binary {left right : Expr} {op : Operator} {span : TokenRange} (hleft : TellsExpr N left)
    (hright : TellsExpr N right) : TellsExpr N (.binary left op right span) := by
  apply of_head
  intro he e' he' hhead
  cases he with
  | binary hop hl hr =>
    cases he' with
    | binary _ hl' hr' =>
      refine (((hleft hl _ hl').cons ((hright hr _ hr').cons .nil)).operation hhead).mono ?_
      intro ⟨hsame, h₁, h₂, _⟩
      simp only [Expr.dropHoles, Expr.erase, hsame, h₁, h₂]
    | unary hop' _ =>
      -- no operation has one operand here and two there
      have hsame := Head.operation.inj (Option.some.inj hhead)
      simp [hsame, hop'] at hop
    | _ => cases hhead

theorem unary {op : Operator} {e : Expr} {span : TokenRange} (hoperand : TellsExpr N e) :
    TellsExpr N (.unary op e span) := by
  apply of_head
  intro he e' he' hhead
  cases he with
  | unary hop hinner =>
    cases he' with
    | unary _ hinner' =>
      refine (((hoperand hinner _ hinner').cons .nil).operation hhead).mono ?_
      intro ⟨hsame, h₁, _⟩
      simp only [Expr.dropHoles, Expr.erase, hsame, h₁]
    | binary hop' _ _ =>
      have hsame := Head.operation.inj (Option.some.inj hhead)
      simp [hsame, hop'] at hop
    | _ => cases hhead

theorem block {b : Block} (hblock : TellsBlock N b) : TellsExpr N (.block b) := by
  apply of_head
  intro he e' he' hhead
  cases he with
  | block hb =>
    cases he' with
    | block hb' =>
      refine (hblock hb _ hb').mono ?_
      intro hsame
      simp only [Expr.dropHoles, Expr.erase, hsame]
    | _ => cases hhead

theorem function {kind : FunctionKind} {name : Option Ident} {params : List Ident} {body : Expr}
    {span : TokenRange} (hbody : TellsExpr N body) :
    TellsExpr N (.function kind name params body span) := by
  apply of_head
  intro he e' he' hhead
  cases e' with
  | function kind' name' params' body' span' =>
    obtain ⟨hname, hparams, hinner⟩ := he.function_parts
    obtain ⟨hname', hparams', hinner'⟩ := he'.function_parts
    refine ((Cancels.functionKind kind kind').cons ((cancels_optional hname hname').cons
      ((cancels_names hparams hparams').cons
        ((hbody hinner body' hinner').cons .nil)))).node.mono ?_
    intro ⟨h₁, h₂, h₃, h₄, _⟩
    simp only [Expr.dropHoles, Expr.erase, h₁, h₂, h₃, h₄]
  | _ => cases hhead

theorem call {callee : Ident} {args : List Expr} {span : TokenRange} (hargs : TellsExprs N args) :
    TellsExpr N (.call callee args span) := by
  apply of_head
  intro he e' he' hhead
  cases he with
  | call hcallee hlist =>
    cases he' with
    | call hcallee' hlist' =>
      refine ((cancels_name hcallee hcallee').cons (hargs.spaced hlist hlist')).node.mono ?_
      intro ⟨h₁, h₂⟩
      simp only [Expr.dropHoles, Expr.erase, h₁, h₂]
    | _ => cases hhead

theorem callValue {callee : Expr} {args : List Expr} {span : TokenRange}
    (hcallee : TellsExpr N callee) (hargs : TellsExprs N args) :
    TellsExpr N (.callValue callee args span) := by
  apply of_head
  intro he e' he' hhead
  cases he with
  | callValue hvalue hlist =>
    cases he' with
    | callValue hvalue' hlist' =>
      refine ((hcallee hvalue _ hvalue').cons (hargs.spaced hlist hlist')).node.mono ?_
      intro ⟨h₁, h₂⟩
      simp only [Expr.dropHoles, Expr.erase, h₁, h₂]
    | _ => cases hhead

theorem tuple {elements : List Expr} {span : TokenRange} (helements : TellsExprs N elements) :
    TellsExpr N (.tuple elements span) := by
  apply of_head
  intro he e' he' hhead
  cases he with
  | tuple hlist =>
    cases he' with
    | tuple hlist' =>
      refine (helements.spaced hlist hlist').node.mono ?_
      intro hsame
      simp only [Expr.dropHoles, Expr.erase, hsame]
    | _ => cases hhead

end TellsExpr

/-! ### Blocks -/

namespace TellsTail

theorem none : TellsTail N none := by
  intro _ value' _ hsome
  cases value' with
  | none => exact Cancels.nil.mono fun _ => rfl
  | some e' => cases hsome

theorem some {e : Expr} (he : TellsExpr N e) : TellsTail N (some e) := by
  intro hproper value' hproper' hsome
  cases value' with
  | none => cases hsome
  | some e' =>
    refine ((he (hproper e rfl) e' (hproper' e' rfl)).cons .nil).mono ?_
    intro ⟨h₁, _⟩
    simp only [Tree.dropHolesTail, Tree.eraseTail, h₁]

end TellsTail

theorem TellsBlock.mk {body : List Stmt} {value : Option Expr} {span : TokenRange}
    (hstmts : TellsStmts N body) (htail : TellsTail N value) :
    TellsBlock N ⟨body, value, span⟩ := by
  intro hb b' hb'
  obtain ⟨body', value', span'⟩ := b'
  cases hb with
  | mk hbody _ hvalue _ =>
    cases hb' with
    | mk hbody' _ hvalue' _ =>
      -- whether there is a value is said first, and so it is known where the statements end
      have hitems : value.isSome = value'.isSome → Cancels _ _ _ := fun hsome =>
        (hstmts hbody body' hbody' value value' hvalue hvalue' hsome _
          (htail hvalue value' hvalue' hsome)).spaced
          (opens_items hvalue body) (opens_items hvalue' body')
      have hflag := (Cancels.flag value.isSome value'.isSome).labelled "tail="
      refine (hflag.andThen hitems).node.mono ?_
      intro ⟨_, h₁, h₂⟩
      simp only [Block.dropHoles, Block.erase, h₁, h₂]

/-! ### Statements -/

namespace TellsStmts

/-- A value that stands where a statement does is told from it by its head. -/
theorem nil : TellsStmts N [] := by
  intro _ ss' _ value value' hvalue _ hsome Q htail
  cases ss' with
  | nil => exact htail.mono fun hQ => ⟨rfl, hQ⟩
  | cons s' ss' =>
    cases value with
    | none => exact .nil_cons
    | some e =>
      exact .of_opens_ne (opens_expr (hvalue e rfl)) (opens_stmt s') (exprHead?_ne_stmtHead e s')

theorem cons {s : Stmt} {ss : List Stmt} (hs : TellsStmt N s) (hss : TellsStmts N ss) :
    TellsStmts N (s :: ss) := by
  intro hproper ss' hproper' value value' hvalue hvalue' hsome Q htail
  cases ss' with
  | nil =>
    cases value' with
    | none => exact Cancels.nil_cons.symm
    | some e' =>
      exact .of_opens_ne (opens_stmt s) (opens_expr (hvalue' e' rfl))
        (exprHead?_ne_stmtHead e' s).symm
  | cons s' ss' =>
    obtain ⟨hfirst, hrest⟩ := List.forall_mem_cons.mp hproper
    obtain ⟨hfirst', hrest'⟩ := List.forall_mem_cons.mp hproper'
    refine ((hs hfirst s' hfirst').cons
      (hss hrest ss' hrest' value value' hvalue hvalue' hsome Q htail)).mono ?_
    intro ⟨h₁, h₂, hQ⟩
    exact ⟨by simp only [Tree.dropHolesStmts, Tree.eraseStmts, h₁, h₂], hQ⟩

end TellsStmts

namespace TellsStmt

/-- Statements of different forms differ in their heads already. -/
theorem of_head {s : Stmt} (h : ProperStmt Written N s → ∀ s', ProperStmt Written N s' →
    some (stmtHead s) = some (stmtHead s') →
      Cancels (stmt s).toList (stmt s').toList (s.dropHoles.erase = s'.dropHoles.erase)) :
    TellsStmt N s :=
  fun hs s' hs' => (opens_stmt s).cancels (opens_stmt s') (h hs s' hs')

theorem expr {e : Expr} {span : TokenRange} (he : TellsExpr N e) : TellsStmt N (.expr e span) := by
  apply of_head
  intro hs s' hs' hhead
  cases hs with
  | expr _ hproper =>
    cases hs' with
    | expr _ hproper' =>
      refine ((he hproper _ hproper').cons .nil).node.mono ?_
      intro ⟨h₁, _⟩
      simp only [Stmt.dropHoles, Stmt.erase, h₁]
    | _ => cases hhead

theorem binding {mutable : Bool} {x : Ident} {value : Expr} {span : TokenRange}
    (hvalue : TellsExpr N value) : TellsStmt N (.binding mutable x value span) := by
  apply of_head
  intro hs s' hs' hhead
  cases hs with
  | binding hx hproper =>
    cases hs' with
    | binding hx' hproper' =>
      refine (((Cancels.flag _ _).labelled "mutable=").cons ((cancels_name hx hx').cons
        ((hvalue hproper _ hproper').cons .nil))).node.mono ?_
      intro ⟨h₁, h₂, h₃, _⟩
      simp only [Stmt.dropHoles, Stmt.erase, h₁, h₂, h₃]
    | _ => cases hhead

theorem function {kind : FunctionKind} {x : Ident} {params : List Ident} {body : Block}
    {span : TokenRange} (hbody : TellsBlock N body) :
    TellsStmt N (.function kind x params body span) := by
  apply of_head
  intro hs s' hs' hhead
  cases hs with
  | function hx hparams hproper _ =>
    cases hs' with
    | function hx' hparams' hproper' _ =>
      refine ((Cancels.functionKind _ _).cons ((cancels_name hx hx').cons
        ((cancels_names hparams hparams').cons
          ((hbody hproper _ hproper').cons .nil)))).node.mono ?_
      intro ⟨h₁, h₂, h₃, h₄, _⟩
      simp only [Stmt.dropHoles, Stmt.erase, h₁, h₂, h₃, h₄]
    | _ => cases hhead

theorem returning {value : Expr} {span : TokenRange} (hvalue : TellsExpr N value) :
    TellsStmt N (.returning value span) := by
  apply of_head
  intro hs s' hs' hhead
  cases hs with
  | returning hproper =>
    cases hs' with
    | returning hproper' =>
      refine ((hvalue hproper _ hproper').cons .nil).node.mono ?_
      intro ⟨h₁, _⟩
      simp only [Stmt.dropHoles, Stmt.erase, h₁]
    | _ => cases hhead

theorem importResource (resource : Literal) (x : Ident) (span : TokenRange) :
    TellsStmt N (.importResource resource x span) := by
  apply of_head
  intro hs s' hs' hhead
  cases hs with
  | importResource _ _ hx =>
    cases hs' with
    | importResource _ _ hx' =>
      refine ((cancels_literal _ _).cons ((cancels_name hx hx').cons .nil)).node.mono ?_
      intro ⟨h₁, h₂, _⟩
      simp only [Stmt.dropHoles, Stmt.erase, h₁, h₂]
    | _ => cases hhead

theorem importPath (p : Path) (span : TokenRange) : TellsStmt N (.importPath p span) := by
  apply of_head
  intro hs s' hs' hhead
  cases hs with
  | importPath hp =>
    cases hs' with
    | importPath hp' =>
      refine ((tellsPath p (.path hp) _ (.path hp')).cons .nil).node.mono ?_
      intro ⟨h₁, _⟩
      simp only [Stmt.dropHoles, Stmt.erase, h₁]
    | _ => cases hhead

end TellsStmt

/-! ### Every tree -/

mutual

theorem tellsExpr : (e : Expr) → TellsExpr N e
  | .literal l => .literal l
  | .ident x => .ident x
  | .binary left _ right _ => .binary (tellsExpr left) (tellsExpr right)
  | .unary _ e _ => .unary (tellsExpr e)
  | .block b => .block (tellsBlock b)
  | .function _ _ _ body _ => .function (tellsExpr body)
  | .call _ args _ => .call (tellsExprs args)
  | .callValue callee args _ => .callValue (tellsExpr callee) (tellsExprs args)
  | .tuple elements _ => .tuple (tellsExprs elements)
  | .path p => .path p
termination_by structural e => e

theorem tellsExprs : (es : List Expr) → TellsExprs N es
  | [] => .nil
  | e :: es => .cons (tellsExpr e) (tellsExprs es)
termination_by structural es => es

theorem tellsBlock : (b : Block) → TellsBlock N b
  | ⟨body, value, _⟩ => .mk (tellsStmts body) (tellsTail value)
termination_by structural b => b

theorem tellsTail : (value : Option Expr) → TellsTail N value
  | none => .none
  | some e => .some (tellsExpr e)
termination_by structural value => value

theorem tellsStmts : (ss : List Stmt) → TellsStmts N ss
  | [] => .nil
  | s :: ss => .cons (tellsStmt s) (tellsStmts ss)
termination_by structural ss => ss

theorem tellsStmt : (s : Stmt) → TellsStmt N s
  | .expr e _ => .expr (tellsExpr e)
  | .binding _ _ value _ => .binding (tellsExpr value)
  | .function _ _ _ body _ => .function (tellsBlock body)
  | .returning value _ => .returning (tellsExpr value)
  | .importResource resource x span => .importResource resource x span
  | .importPath p span => .importPath p span
termination_by structural s => s

end

/-- The statements of a program are told apart like those of a block without a value. -/
theorem cancels_program {p q : Program} (hp : ∀ s ∈ p.body, ProperStmt Written N s)
    (hq : ∀ s ∈ q.body, ProperStmt Written N s) :
    Cancels p.outline.toList q.outline.toList (p.dropHoles.erase = q.dropHoles.erase) := by
  have hnone : ∀ e ∈ (none : Option Expr), ProperExpr Written N e := nofun
  have hbody := tellsStmts p.body hp q.body hq none none hnone hnone rfl True .nil
  have hitems := hbody.spaced (opens_items hnone p.body) (opens_items hnone q.body)
  simp only [tail, List.append_nil] at hitems
  refine hitems.node.mono ?_
  intro ⟨hsame, _⟩
  simp only [Program.dropHoles, Program.erase, hsame]

end Outline

namespace Program

open Grammar Lexical

/-- What outlines tell apart. Programs that differ in spans only have one outline. Two programs
that were read have one outline exactly if they differ in spans and in holes only, that is in names
of functions and aliases of paths that are written `_` in one and left out in the other. -/
theorem outline_eq_iff {source source' : String} {p q : Program} (hp : ofSource source = .ok p)
    (hq : ofSource source' = .ok q) :
    (p.erase = q.erase → p.outline = q.outline) ∧
      (p.outline = q.outline ↔ p.dropHoles.erase = q.dropHoles.erase) := by
  refine ⟨?_, ?_, ?_⟩
  · intro h
    rw [← outline_erase p, ← outline_erase q, h]
  · intro h
    have hfit : ∀ bs, TailsFit (fun _ => True) bs := fun _ _ _ _ _ => trivial
    have hcancels := Outline.cancels_program (proper_of_ofSource hp (hfit p.blocks))
      (proper_of_ofSource hq (hfit q.blocks))
    exact (hcancels.cancel ends_nil ends_nil (by rw [h])).1
  · intro h
    rw [← outline_dropHoles p, ← outline_dropHoles q, ← outline_erase p.dropHoles,
      ← outline_erase q.dropHoles, h]

/-- A function with the name `_` looks like a function without a name. -/
theorem outline_eq_iff_hole :
    ∃ p q, ofSource "let f = compute _(x) -> x;" = .ok p ∧
      ofSource "let f = compute(x) -> x;" = .ok q ∧
      p.outline = "(program (let mutable=false f (fn Compute _ (x) x)))" ∧
      p.outline = q.outline ∧ p.dropHoles.erase = q.dropHoles.erase ∧ p.erase ≠ q.erase := by
  have hfacts : (ofSource "let f = compute _(x) -> x;").toOption.map
      (fun p => (p.outline, p.print)) =
        some ("(program (let mutable=false f (fn Compute _ (x) x)))",
          "let f = compute _(x) -> x;") := by
    decide +kernel
  have hfacts' : (ofSource "let f = compute(x) -> x;").toOption.map
      (fun q => (q.outline, q.print)) =
        some ("(program (let mutable=false f (fn Compute _ (x) x)))",
          "let f = compute(x) -> x;") := by
    decide +kernel
  cases hp : ofSource "let f = compute _(x) -> x;" with
  | error e =>
    rw [hp] at hfacts
    cases hfacts
  | ok p =>
    cases hq : ofSource "let f = compute(x) -> x;" with
    | error e =>
      rw [hq] at hfacts'
      cases hfacts'
    | ok q =>
      rw [hp] at hfacts
      rw [hq] at hfacts'
      obtain ⟨houtline, hprint⟩ := Prod.mk.inj (Option.some.inj hfacts)
      obtain ⟨houtline', hprint'⟩ := Prod.mk.inj (Option.some.inj hfacts')
      have hsame : p.outline = q.outline := houtline.trans houtline'.symm
      refine ⟨p, q, rfl, rfl, houtline, hsame, (outline_eq_iff hp hq).2.mp hsame, ?_⟩
      -- equal trees would be printed alike
      intro herase
      have htext := print_eq_of_erase_eq herase
      rw [hprint, hprint'] at htext
      exact absurd htext (by decide)

end Program

end FrontEnd
