import FrontEnd.Proofs.Nodes
import FrontEnd.Proofs.Proper
import FrontEnd.Proofs.Reading.Program

/-! The rules that the nodes of an accepted program obey. They are checked in different places while
a tree is built, and building goes on after a check has failed; but a failed check leaves a
diagnostic behind, so in a program that was accepted every rule holds at every node. -/
namespace FrontEnd

/-- An item of a block: a statement, or the expression that is the value of the block. -/
inductive BlockItem where
  | stmt (stmt : Stmt)
  | expr (expr : Expr)

def BlockItem.isExpr : BlockItem → Bool
  | .stmt _ => false
  | .expr _ => true

namespace Block

/-- The items between the braces. -/
def items (b : Block) : List BlockItem :=
  b.stmts.map .stmt ++ b.tail.toList.map .expr

/-- An item is an expression if it is the last one, in a block that has a value. -/
theorem isExpr_iff {b : Block} {k : Nat} {item : BlockItem} (h : b.items[k]? = some item) :
    item.isExpr = true ↔ b.hasTail = true ∧ k + 1 = b.items.length := by
  obtain ⟨stmts, tail, span⟩ := b
  have hlength : (Block.items ⟨stmts, tail, span⟩).length = stmts.length + tail.toList.length := by
    simp [items]
  -- the item is one of the statements, or it is the value
  by_cases hk : k < stmts.length
  · have hitem : item = .stmt stmts[k] := by
      rw [items, List.getElem?_append_left (by simpa using hk), List.getElem?_map,
        List.getElem?_eq_getElem hk] at h
      exact (Option.some.inj h).symm
    rw [hitem, hlength]
    refine iff_of_false Bool.false_ne_true ?_
    rintro ⟨htail, hlast⟩
    cases tail with
    | none => cases htail
    | some value =>
      rw [Option.toList_some, List.length_singleton] at hlast
      omega
  · rw [items, List.getElem?_append_right (by simpa using Nat.le_of_not_lt hk),
      List.length_map] at h
    cases tail with
    | none => simp at h
    | some value =>
      have hlast : k - stmts.length = 0 := by
        obtain ⟨hlt, -⟩ := List.getElem?_eq_some_iff.mp h
        simpa using hlt
      rw [hlast] at h
      cases h
      rw [hlength, Option.toList_some, List.length_singleton]
      exact iff_of_true rfl ⟨rfl, by omega⟩

end Block

/-- A path that goes on with names only, and is given no other name. -/
def Path.Plain (p : Path) : Prop :=
  p.localName = none ∧ ((∃ x, p.target = .item x) ∨ ∃ next, p.target = .nested next)

namespace Node

/-- If the node is a path it is a plain one. -/
def PlainPath (node : Node) : Prop :=
  ∀ p, node = .path p → p.Plain

/-- The rule for a node. Names spell no keyword and operators stand where their operations do.
Only the last item of a block may be an expression; its statements are no imports, and expressions
among them can stand alone. An action is a block without a value. A path in an expression is plain,
and so is every path below it; a leaf is an entry of a group, groups are not empty, and only leaves
and single names are given other names. -/
def Lawful : Node → Prop
  | .ident x => x.isKeyword = false
  | .path p =>
    (p.localName.isSome = true → p.target = .leaf ∨ ∃ x, p.target = .item x) ∧
      (∀ next, p.target = .nested next → next.target ≠ .leaf) ∧ p.target ≠ .group []
  | .block b =>
    (∀ k item, b.items[k]? = some item →
      (item.isExpr = true ↔ b.hasTail = true ∧ k + 1 = b.items.length)) ∧
      ∀ s ∈ b.stmts, s.kind ≠ .importing
  | .expr (.unary op _ _) => op.operation.isUnary = true
  | .expr (.binary _ op _ _) => op.operation.precedence.isSome = true
  | .expr (.function .action _ _ body _) => ∃ b, body = .block b ∧ b.hasTail = false
  | .expr (.path p) => Everywhere PlainPath (.path p)
  | .stmt (.expr e _) => e.canStandAlone = true
  | .stmt (.function .action _ _ body _) => body.hasTail = false
  | .stmt (.importPath p _) => p.target ≠ .leaf
  | _ => True

end Node

theorem Operation.isSome_precedence {operation : Operation} (h : operation.isUnary = false) :
    operation.precedence.isSome = true := by
  rw [← Option.ne_none_iff_isSome, ne_eq, precedence_eq_none_iff, h]
  exact Bool.false_ne_true

namespace Grammar

open Node

variable {L : Lexeme → Prop} {N : Expr → Prop}

theorem ProperName.lawful {x : Ident} (h : ProperName L x) : Everywhere Lawful (.ident x) := by
  refine .leaf ?_ rfl
  show x.keyword.isSome = false
  rw [h.keyword]
  rfl

theorem ProperAlias.lawful {place : PathPlace} {aliasable : Bool} {localName : Option Ident}
    (h : ProperAlias L place aliasable localName) :
    ∀ node ∈ localName.toList.map .ident, Everywhere Lawful node := by
  refine List.forall_mem_map.mpr ?_
  intro x hx
  exact (h x (by simpa using hx)).2.2.lawful

theorem lawful_names {name : Option Ident} {params : List Ident}
    (hname : ∀ x ∈ name, ProperName L x) (hparams : ∀ x ∈ params, ProperName L x) :
    ∀ node ∈ (name.toList ++ params).map .ident, Everywhere Lawful node := by
  refine List.forall_mem_map.mpr (List.forall_mem_append.mpr ⟨?_, ?_⟩)
  · intro x hx
    exact (hname x (by simpa using hx)).lawful
  · intro x hx
    exact (hparams x hx).lawful

/-- A declaration is lawful if an action has no value. -/
theorem lawful_declaration {kind : FunctionKind} {x : Ident} {params : List Ident} {body : Block}
    {span : TokenRange} (htail : kind = .action → body.tail = none) :
    Lawful (.stmt (.function kind x params body span)) := by
  cases kind with
  | action =>
    show Option.isSome _ = false
    rw [htail rfl]
    rfl
  | compute => trivial

/-- What the rule for a path asks of its target. -/
structure LawfulTarget (aliasable : Bool) (target : PathTarget) : Prop where
  children : ∀ node ∈ ofTarget target, Everywhere Lawful node
  not_leaf : target ≠ .leaf
  item : aliasable = true → ∃ x, target = .item x
  nested : ∀ next, target = .nested next → next.target ≠ .leaf
  not_empty : target ≠ .group []

mutual

theorem ProperPath.lawful {place : PathPlace} {p : Path} (h : ProperPath L place p) :
    Everywhere Lawful (.path p) ∧ p.target ≠ .leaf := by
  match h with
  | .mk hsegment htarget halias =>
    have ht := htarget.lawful
    refine ⟨.mk ⟨?_, ht.nested, ht.not_empty⟩ ?_, ht.not_leaf⟩
    · intro hsome
      obtain ⟨x, hx⟩ := Option.isSome_iff_exists.mp hsome
      exact .inr (ht.item (halias x hx).2.1)
    · exact List.forall_mem_cons.mpr
        ⟨hsegment.lawful, List.forall_mem_append.mpr ⟨ht.children, halias.lawful⟩⟩

theorem ProperTarget.lawful {place : PathPlace} {target : PathTarget} {aliasable : Bool}
    (h : ProperTarget L place target aliasable) : LawfulTarget aliasable target := by
  match h with
  | .item hx =>
    exact ⟨List.forall_mem_singleton.mpr hx.lawful, nofun, fun _ => ⟨_, rfl⟩, nofun, nofun⟩
  | .nested hnext =>
    obtain ⟨hlawful, hleaf⟩ := hnext.lawful
    refine ⟨List.forall_mem_singleton.mpr hlawful, nofun, nofun, ?_, nofun⟩
    rintro _ ⟨⟩
    exact hleaf
  | .wildcard =>
    exact ⟨List.forall_mem_singleton.mpr (.leaf trivial rfl), nofun, nofun, nofun, nofun⟩
  | .group hne hentries =>
    have hall := fun entry hmem => (hentries entry hmem).lawful
    refine ⟨List.forall_mem_map.mpr hall, nofun, nofun, nofun, ?_⟩
    rintro ⟨⟩
    exact hne rfl

theorem ProperEntry.lawful {entry : Path} (h : ProperEntry L entry) :
    Everywhere Lawful (.path entry) := by
  match h with
  | .leaf hsegment halias =>
    exact .mk ⟨fun _ => .inl rfl, nofun, nofun⟩
      (List.forall_mem_cons.mpr ⟨hsegment.lawful, halias.lawful⟩)
  | .path hpath => exact hpath.lawful.1

end

/-- No path in an expression is given another name. -/
theorem ProperAlias.eq_none {aliasable : Bool} {localName : Option Ident}
    (h : ProperAlias L .expression aliasable localName) : localName = none := by
  refine Option.eq_none_iff_forall_not_mem.mpr ?_
  intro x hx
  cases (h x hx).1

theorem plainPath_ident (x : Ident) : Everywhere PlainPath (.ident x) :=
  .leaf nofun rfl

mutual

/-- In an expression a path is plain. -/
theorem ProperPath.plain {p : Path} (h : ProperPath L .expression p) :
    Everywhere PlainPath (.path p) := by
  match h with
  | .mk hsegment htarget halias =>
    obtain rfl := halias.eq_none
    obtain ⟨hchildren, hform⟩ := htarget.plain
    refine .mk ?_ ?_
    · rintro _ ⟨⟩
      exact ⟨rfl, hform⟩
    · exact List.forall_mem_cons.mpr ⟨plainPath_ident _,
        List.forall_mem_append.mpr ⟨hchildren, List.forall_mem_nil _⟩⟩

theorem ProperTarget.plain {target : PathTarget} {aliasable : Bool}
    (h : ProperTarget L .expression target aliasable) :
    (∀ node ∈ ofTarget target, Everywhere PlainPath node) ∧
      ((∃ x, target = .item x) ∨ ∃ next, target = .nested next) := by
  match h with
  | .item _ =>
    exact ⟨List.forall_mem_singleton.mpr (plainPath_ident _), .inl ⟨_, rfl⟩⟩
  | .nested hnext =>
    exact ⟨List.forall_mem_singleton.mpr hnext.plain, .inr ⟨_, rfl⟩⟩

end

mutual

theorem ProperExpr.lawful {e : Expr} (h : ProperExpr L N e) : Everywhere Lawful (.expr e) := by
  match h with
  | .literal _ => exact .mk trivial (List.forall_mem_singleton.mpr (.leaf trivial rfl))
  | .ident hx => exact .mk trivial (List.forall_mem_singleton.mpr hx.lawful)
  | .binary hop hleft hright =>
    exact .mk (Operation.isSome_precedence hop) (List.forall_mem_cons.mpr ⟨hleft.lawful,
      List.forall_mem_cons.mpr ⟨.leaf trivial rfl, List.forall_mem_singleton.mpr hright.lawful⟩⟩)
  | .unary hop he =>
    exact .mk hop (List.forall_mem_cons.mpr
      ⟨.leaf trivial rfl, List.forall_mem_singleton.mpr he.lawful⟩)
  | .block hb => exact .mk trivial (List.forall_mem_singleton.mpr hb.lawful)
  | .compute hname hparams hbody =>
    exact .mk trivial (List.forall_mem_append.mpr
      ⟨lawful_names hname hparams, List.forall_mem_singleton.mpr hbody.lawful⟩)
  | .action hname hparams hbody htail =>
    refine .mk ⟨_, rfl, by rw [Block.hasTail, htail]; rfl⟩ ?_
    refine List.forall_mem_append.mpr
      ⟨lawful_names hname hparams, List.forall_mem_singleton.mpr ?_⟩
    exact .mk trivial (List.forall_mem_singleton.mpr hbody.lawful)
  | .call hx hargs =>
    have hall := fun e hmem => (hargs e hmem).lawful
    exact .mk trivial (List.forall_mem_cons.mpr ⟨hx.lawful, List.forall_mem_map.mpr hall⟩)
  | .callValue hcallee hargs =>
    have hall := fun e hmem => (hargs e hmem).lawful
    exact .mk trivial (List.forall_mem_cons.mpr ⟨hcallee.lawful, List.forall_mem_map.mpr hall⟩)
  | .tuple hes =>
    have hall := fun e hmem => (hes e hmem).lawful
    exact .mk trivial (List.forall_mem_map.mpr hall)
  | .path hp => exact .mk hp.plain (List.forall_mem_singleton.mpr hp.lawful.1)

theorem ProperBlock.lawful {b : Block} (h : ProperBlock L N b) :
    Everywhere Lawful (.block b) := by
  match h with
  | .mk hstmts hallowed htail _ =>
    have hall := fun s hmem => (hstmts s hmem).lawful
    have hvalue := fun value hmem => (htail value hmem).lawful
    refine .mk ⟨fun _ _ => Block.isExpr_iff, ?_⟩ ?_
    · intro s hmem
      have hs := hallowed s hmem
      cases s <;> simp_all [Stmt.allowedInBlock, Stmt.kind]
    · refine List.forall_mem_append.mpr
        ⟨List.forall_mem_map.mpr hall, List.forall_mem_map.mpr ?_⟩
      intro value hmem
      exact hvalue value (by simpa using hmem)

theorem ProperStmt.lawful {s : Stmt} (h : ProperStmt L N s) : Everywhere Lawful (.stmt s) := by
  match h with
  | .expr halone he => exact .mk halone (List.forall_mem_singleton.mpr he.lawful)
  | .binding hx hvalue =>
    exact .mk trivial (List.forall_mem_cons.mpr
      ⟨hx.lawful, List.forall_mem_singleton.mpr hvalue.lawful⟩)
  | .function hx hparams hbody htail =>
    have hlawful := hbody.lawful
    refine .mk (lawful_declaration htail) (List.forall_mem_append.mpr
      ⟨@lawful_names _ (some _) _ ?_ hparams, List.forall_mem_singleton.mpr hlawful⟩)
    rintro _ ⟨⟩
    exact hx
  | .returning hvalue => exact .mk trivial (List.forall_mem_singleton.mpr hvalue.lawful)
  | .importResource _ _ hx =>
    exact .mk trivial (List.forall_mem_cons.mpr
      ⟨.leaf trivial rfl, List.forall_mem_singleton.mpr hx.lawful⟩)
  | .importPath hp =>
    obtain ⟨hlawful, hleaf⟩ := hp.lawful
    exact .mk hleaf (List.forall_mem_singleton.mpr hlawful)

end

end Grammar

namespace Program

open Grammar

/-- Every node of an accepted program is lawful. -/
theorem ofTokens_lawful {tokens : List Token} {program : Program}
    (h : ofTokens tokens = .ok program) : ∀ node, program.Contains node → node.Lawful := by
  have hproper : ∀ s ∈ program.body, ProperStmt (fun _ => True) (fun _ => True) s := by
    refine (programAt_of_ofTokens h).proper ⟨fun _ _ => trivial, fun _ _ _ => trivial⟩ ?_
    intro _ _ _ _
    trivial
  rintro node ⟨s, hs, hnode⟩
  exact (hproper s hs).lawful node hnode

/-- The tokens of an import of a group with one entry, which is given another name. -/
def groupTokens : List Token :=
  [⟨.word "import", ⟨0, 6⟩, 0⟩, ⟨.word "a", ⟨7, 8⟩, 0⟩, ⟨.fixed .doubleColon, ⟨8, 10⟩, 0⟩,
    ⟨.fixed .openCurly, ⟨10, 11⟩, 0⟩, ⟨.word "b", ⟨11, 12⟩, 0⟩, ⟨.word "as", ⟨13, 15⟩, 0⟩,
    ⟨.word "c", ⟨16, 17⟩, 0⟩, ⟨.fixed .closeCurly, ⟨17, 18⟩, 0⟩,
    ⟨.fixed .semicolon, ⟨18, 19⟩, 0⟩]

/-- A leaf with another name is lawful where it is an entry of a group. -/
theorem ofTokens_lawful_group :
    ∃ program, ofTokens groupTokens = .ok program ∧ program.body.length = 1 ∧
      ∀ node, program.Contains node → node.Lawful := by
  have hlength : (ofTokens groupTokens).toOption.map (·.body.length) = some 1 := by
    decide +kernel
  cases hrun : ofTokens groupTokens with
  | error e =>
    rw [hrun] at hlength
    cases hlength
  | ok program =>
    rw [hrun] at hlength
    exact ⟨program, rfl, Option.some.inj hlength, ofTokens_lawful hrun⟩

end Program

end FrontEnd
