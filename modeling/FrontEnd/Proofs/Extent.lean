import FrontEnd.Proofs.Derivation

/-! How far the parts of a program reach: every part ends behind its start, and only lists may be
empty. -/
namespace FrontEnd

/-- A range that is not empty and lies between two places. -/
def TokenRange.Within (r : TokenRange) (i j : Nat) : Prop :=
  i ≤ r.start ∧ r.start < r.stop ∧ r.stop ≤ j

theorem TokenRange.clamped_of_le {i j : Nat} (h : i ≤ j) : clamped i j = ⟨i, j⟩ := by
  simp [clamped, Nat.max_eq_left h]

theorem TokenRange.within_clamped {i j : Nat} (h : i < j) : (clamped i j).Within i j := by
  rw [clamped_of_le (Nat.le_of_lt h)]
  exact ⟨Nat.le_refl i, h, Nat.le_refl j⟩

theorem TokenRange.within_single (i : Nat) : (single i).Within i (i + 1) :=
  ⟨Nat.le_refl i, Nat.lt_succ_self i, Nat.le_refl (i + 1)⟩

namespace Grammar

variable {T : Nat → Lexeme} {i j : Nat}

/-- A place has one name. -/
theorem NameAt.unique {x y : Ident} (hx : NameAt T i x) (hy : NameAt T i y) : x = y :=
  hx.2.2.trans hy.2.2.symm

theorem OptionalNameAt.le {name : Option Ident} (h : OptionalNameAt T i j name) : i ≤ j := by
  cases h <;> omega

theorem ParamsAt.le {params : List Ident} (h : ParamsAt T i j params) : i ≤ j := by
  induction h <;> omega

theorem SignatureAt.lt {kind : FunctionKind} {name : Option Ident} {params : List Ident}
    (h : SignatureAt T i j kind name params) : i < j := by
  obtain ⟨-, hname, -, hparams, -, -⟩ := h
  have := hname.le
  have := hparams.le
  omega

/-- A function header starts with the keyword of its kind. -/
theorem SignatureAt.functionKind? {kind : FunctionKind} {name : Option Ident}
    {params : List Ident} (h : SignatureAt T i j kind name params) :
    (T i).keyword?.bind Keyword.functionKind? = some kind := by
  obtain ⟨hkind, -⟩ := h
  exact hkind

theorem SignatureAt.kind_eq_word {kind : FunctionKind} {name : Option Ident}
    {params : List Ident} (h : SignatureAt T i j kind name params) : (T i).kind = .word := by
  obtain ⟨keyword, hkey, -⟩ := Option.bind_eq_some_iff.mp h.functionKind?
  exact Lexeme.kind_eq_word_of_keyword? hkey

theorem OptionalNameAt.stop_unique {k : Nat} {x y : Option Ident} (hx : OptionalNameAt T i j x)
    (hy : OptionalNameAt T i k y) : j = k := by
  cases hx with
  | none hno =>
    cases hy with
    | none => rfl
    | some hy => exact absurd hy.1 hno
  | some hx =>
    cases hy with
    | none hno => exact absurd hx.1 hno
    | some => rfl

theorem ParamsAt.stop_unique {k : Nat} {xs ys : List Ident} (hxs : ParamsAt T i j xs)
    (hys : ParamsAt T i k ys) : j = k := by
  have hword : ∀ {i : Nat} {x : Ident}, NameAt T i x → (T i).kind ≠ .closeParen := by
    intro i x hx
    rw [hx.1]
    decide
  induction hxs generalizing ys with
  | nil hclose =>
    cases hys with
    | nil => rfl
    | last hy _ => exact absurd hclose (hword hy)
    | cons hy _ _ => exact absurd hclose (hword hy)
  | last hx hclose =>
    cases hys with
    | nil hno => exact absurd hno (hword hx)
    | last => rfl
    | cons _ hcomma _ => cases hclose.symm.trans hcomma
  | cons hx hcomma _ ih =>
    cases hys with
    | nil hno => exact absurd hno (hword hx)
    | last _ hclose => cases hclose.symm.trans hcomma
    | cons _ _ hys => exact ih hys

/-- From a place on there is one header at most, and so it has one end. -/
theorem SignatureAt.stop_unique {k : Nat} {kind kind' : FunctionKind} {x y : Option Ident}
    {xs ys : List Ident} (hx : SignatureAt T i j kind x xs) (hy : SignatureAt T i k kind' y ys) :
    j = k := by
  obtain ⟨-, hname, -, hparams, -, -⟩ := hx
  obtain ⟨-, hname', -, hparams', -, -⟩ := hy
  obtain rfl := hname.stop_unique hname'
  rw [hparams.stop_unique hparams']

theorem AliasAt.le {allowed : Bool} {x : Option Ident} (h : AliasAt T allowed i j x) :
    i ≤ j := by
  cases h <;> omega

theorem AliasInAt.le {place : PathPlace} {allowed : Bool} {x : Option Ident}
    (h : AliasInAt T place allowed i j x) : i ≤ j := by
  cases h with
  | importing h => exact h.le
  | expression => exact Nat.le_refl i

mutual

theorem PathAt.lt {place : PathPlace} {segment : Ident} {i j : Nat} {p : Path}
    (h : PathAt T place segment i j p) : i < j := by
  match h with
  | .mk htarget halias => exact Nat.lt_of_lt_of_le htarget.lt halias.le

theorem TargetAt.lt {place : PathPlace} {i j : Nat} {target : PathTarget} {aliasable : Bool}
    (h : TargetAt T place i j target aliasable) : i < j := by
  match h with
  | .item _ _ => omega
  | .nested _ _ hnext =>
    have := hnext.lt
    omega
  | .wildcard _ => omega
  | .group _ hentries _ =>
    have := hentries.lt
    omega

theorem EntriesAt.lt {i j : Nat} {entries : List Path} (h : EntriesAt T i j entries) :
    i < j := by
  match h with
  | .last h _ => exact h.lt
  | .cons h _ hentries =>
    have := h.lt
    have := hentries.lt
    omega

theorem EntryAt.lt {i j : Nat} {entry : Path} (h : EntryAt T i j entry) : i < j := by
  match h with
  | .leaf _ _ halias =>
    have := halias.le
    omega
  | .path _ _ hpath =>
    have := hpath.lt
    omega

end

mutual

theorem ExprAt.lt {i j : Nat} {e : Expr} (h : ExprAt T i j e) : i < j := by
  match h with
  | .mk hu hlinks _ _ => exact Nat.lt_of_lt_of_le hu.lt hlinks.le

theorem LinksAt.le {i j : Nat} {links : Links} (h : LinksAt T i j links) : i ≤ j := by
  match h with
  | .nil => exact Nat.le_refl i
  | .cons _ hu hlinks =>
    have := hu.lt
    have := hlinks.le
    omega

theorem OperandAt.lt {i j : Nat} {e : Expr} (h : OperandAt T i j e) : i < j := by
  match h with
  | .before _ he =>
    have := he.lt
    omega
  | .called hcallee hcalls => exact Nat.lt_of_lt_of_le hcallee.lt hcalls.le

theorem CallsAt.le {i j : Nat} {callee e : Expr} (h : CallsAt T i j callee e) : i ≤ j := by
  match h with
  | .done _ => exact Nat.le_refl i
  | .call hargs hcalls =>
    have := hargs.lt
    have := hcalls.le
    omega

theorem ArgumentsAt.lt {i j : Nat} {args : List Expr} (h : ArgumentsAt T i j args) : i < j := by
  match h with
  | .mk _ hargs =>
    have := hargs.le
    omega

theorem ExprsAt.le {i j : Nat} {es : List Expr} (h : ExprsAt T i j es) : i ≤ j := by
  match h with
  | .nil _ => exact Nat.le_refl i
  | .last he _ => exact Nat.le_of_lt he.lt
  | .cons he _ hes =>
    have := he.lt
    have := hes.le
    omega

theorem PrimaryAt.lt {i j : Nat} {e : Expr} (h : PrimaryAt T i j e) : i < j := by
  match h with
  | .literal _ => omega
  | .path _ _ hpath =>
    have := hpath.lt
    omega
  | .call _ hargs =>
    have := hargs.lt
    omega
  | .ident _ _ _ => omega
  | .unit _ _ => omega
  | .grouping _ he _ =>
    have := he.lt
    omega
  | .tuple _ he _ hes =>
    have := he.lt
    have := hes.le
    omega
  | .block h => exact h.lt
  | .compute hheader hbody =>
    have := hheader.lt
    have := hbody.lt
    omega
  | .action hheader hbody _ =>
    have := hheader.lt
    have := hbody.lt
    omega

theorem BlockAt.lt {i j : Nat} {b : Block} (h : BlockAt T i j b) : i < j := by
  match h with
  | .mk _ hitems _ =>
    have := hitems.le
    omega

theorem ItemsAt.le {i j : Nat} {stmts : List Stmt} {tail : Option Expr}
    (h : ItemsAt T i j stmts tail) : i ≤ j := by
  match h with
  | .nil _ => exact Nat.le_refl i
  | .tail _ he _ => exact Nat.le_of_lt he.lt
  | .functionTail _ _ he _ => exact Nat.le_of_lt he.lt
  | .stmt hs _ hstmts =>
    have := hs.lt
    have := hstmts.le
    omega

theorem StmtAt.lt {i j : Nat} {stmt : Stmt} (h : StmtAt T i j stmt) : i < j := by
  match h with
  | .expr _ he _ _ =>
    have := he.lt
    omega
  | .binding _ _ hk _ _ hvalue _ =>
    have := hvalue.lt
    omega
  | .function hheader hbody _ =>
    have := hheader.lt
    have := hbody.lt
    omega
  | .returning _ hvalue _ =>
    have := hvalue.lt
    omega
  | .importResource _ _ _ _ _ _ => omega
  | .importPath _ _ _ hpath _ =>
    have := hpath.lt
    omega

end

theorem ArgumentsAt.openParen {i j : Nat} {args : List Expr} (h : ArgumentsAt T i j args) :
    (T i).kind = .openParen := by
  obtain ⟨hopen, -⟩ := h
  exact hopen

theorem BlockAt.openCurly {i j : Nat} {b : Block} (h : BlockAt T i j b) :
    (T i).kind = .openCurly := by
  obtain ⟨hopen, -, -⟩ := h
  exact hopen

/-- A list of expressions stands before a closing parenthesis. -/
theorem ExprsAt.closeParen {i j : Nat} {es : List Expr} (h : ExprsAt T i j es) :
    (T j).kind = .closeParen := by
  match h with
  | .nil h => exact h
  | .last _ hclose => exact hclose
  | .cons _ _ hes => exact hes.closeParen

/-- The operand lies where it stands. -/
def WithinAt (_ : Nat → Lexeme) (i j : Nat) (u : Expr) : Prop :=
  u.span.Within i j

/-- A tree reaches from the start of its first operand to the end of its last one. -/
theorem ChainAt.within {u e : Expr} {links : Links} (hgroup : Grouped u links e) :
    ∀ {i k j : Nat}, u.span.Within i k → ChainAt WithinAt T k j links → e.span.Within i j := by
  induction hgroup with
  | operand u =>
    intro i k j hu h
    cases h with
    | nil => exact hu
  | @split u v left right op before after _ _ _ _ _ _ ihleft ihright =>
    intro i k j hu h
    obtain ⟨m, hbefore, hrest⟩ := h.append_inv
    cases hrest with
    | cons hop hv hafter =>
      obtain ⟨hl₁, hl₂, hl₃⟩ := ihleft hu hbefore
      obtain ⟨hr₁, hr₂, hr₃⟩ := ihright hv hafter
      -- the left side starts the tree and the right side ends it, whatever stands between
      have hspan : ∀ op, (left.join op right).span = ⟨left.span.start, right.span.stop⟩ := by
        intro op
        show TokenRange.clamped left.span.start right.span.stop = _
        exact TokenRange.clamped_of_le (by omega)
      rw [hspan]
      exact ⟨hl₁, by show left.span.start < right.span.stop; omega, hr₃⟩

theorem BlockAt.span_eq {b : Block} (h : BlockAt T i j b) : b.span = ⟨i, j⟩ := by
  have hlt := h.lt
  cases h with
  | mk _ _ _ => exact TokenRange.clamped_of_le (Nat.le_of_lt hlt)

/-- A path that is read behind its segment reaches from the segment to its end. -/
theorem PathAt.span_eq {place : PathPlace} {segment : Ident} {p : Path}
    (h : PathAt T place segment i j p) : p.span = .clamped segment.span.start j := by
  cases h with
  | mk _ _ => rfl

mutual

theorem ExprAt.within {i j : Nat} {e : Expr} (h : ExprAt T i j e) : e.span.Within i j := by
  match h with
  | .mk hu hlinks hgroup _ => exact ChainAt.within hgroup hu.within hlinks.within

theorem LinksAt.within {i j : Nat} {links : Links} (h : LinksAt T i j links) :
    ChainAt WithinAt T i j links := by
  match h with
  | .nil => exact .nil
  | .cons hop hu hlinks => exact .cons hop hu.within hlinks.within

theorem OperandAt.within {i j : Nat} {e : Expr} (h : OperandAt T i j e) :
    e.span.Within i j := by
  match h with
  | .before _ he =>
    obtain ⟨h₁, h₂, h₃⟩ := he.within
    exact ⟨Nat.le_refl i, Nat.lt_trans (Nat.lt_of_lt_of_le (Nat.lt_succ_self i) h₁) h₂, h₃⟩
  | .called hcallee hcalls => exact hcalls.within hcallee.within

theorem CallsAt.within {i j k : Nat} {callee e : Expr} (h : CallsAt T i j callee e)
    (hcallee : callee.span.Within k i) : e.span.Within k j := by
  match h with
  | .done _ => exact hcallee
  | .call hargs hcalls =>
    obtain ⟨h₁, h₂, h₃⟩ := hcallee
    have hlt := hargs.lt
    refine hcalls.within ?_
    show (TokenRange.clamped _ _).Within k _
    rw [TokenRange.clamped_of_le (by omega)]
    exact ⟨h₁, Nat.lt_of_lt_of_le h₂ (Nat.le_trans h₃ (Nat.le_of_lt hlt)), Nat.le_refl _⟩

theorem PrimaryAt.within {i j : Nat} {e : Expr} (h : PrimaryAt T i j e) :
    e.span.Within i j := by
  match h with
  | .literal _ => exact TokenRange.within_single i
  | .path hx _ hpath =>
    have hlt := hpath.lt
    obtain ⟨-, -, rfl⟩ := hx
    show TokenRange.Within (Path.span _) i j
    rw [hpath.span_eq]
    exact TokenRange.within_clamped (by show i < j; omega)
  | .call _ hargs => exact TokenRange.within_clamped (Nat.lt_of_succ_lt hargs.lt)
  | .ident hx _ _ =>
    obtain ⟨-, -, rfl⟩ := hx
    exact TokenRange.within_single i
  | .unit _ _ => exact TokenRange.within_clamped (by omega)
  | .grouping _ he _ =>
    obtain ⟨h₁, h₂, h₃⟩ := he.within
    exact ⟨by omega, h₂, by omega⟩
  | .tuple _ he _ hes =>
    have := he.lt
    have := hes.le
    exact TokenRange.within_clamped (by omega)
  | .block hb =>
    show TokenRange.Within (Block.span _) i j
    rw [hb.span_eq]
    exact ⟨Nat.le_refl i, hb.lt, Nat.le_refl j⟩
  | .compute hheader hbody =>
    obtain ⟨h₁, h₂, h₃⟩ := hbody.within
    exact ⟨Nat.le_refl i, Nat.lt_trans (Nat.lt_of_lt_of_le hheader.lt h₁) h₂, h₃⟩
  | .action hheader hbody _ =>
    have := hheader.lt
    have := hbody.lt
    refine ⟨Nat.le_refl i, ?_, ?_⟩
    · show i < (Block.span _).stop
      rw [hbody.span_eq]
      show i < j
      omega
    · exact Nat.le_of_eq (congrArg TokenRange.stop hbody.span_eq)

end

end Grammar

end FrontEnd
