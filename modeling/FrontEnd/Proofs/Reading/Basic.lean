import FrontEnd.Proofs.Climbing
import FrontEnd.Proofs.Extent

/-! What the rules of a level read. A rule that ends with a value has passed the tokens of that
value; if it recorded nothing on the way, these tokens are read as the value in the grammar. -/
namespace FrontEnd

namespace Grammar

open Parse

/-- A lexeme that an expression can start with. -/
def StartsExpr (lexeme : Lexeme) : Prop :=
  (LiteralKind.ofLexeme? lexeme).isSome ∨ lexeme.kind = .word ∨ lexeme.kind = .openParen ∨
    lexeme.kind = .openCurly ∨ (Operation.unary? lexeme).isSome

/-- An operand was read. -/
def OperandRead (s : State) (u : Expr) (t : State) : Prop :=
  Grows s t ∧ u.span.Within s.pos t.pos ∧
    (t.errors = s.errors → OperandAt s.lexeme s.pos t.pos u)

/-- An expression was read, or none starts here. -/
def ExprRead (s : State) (e? : Option Expr) (t : State) : Prop :=
  match e? with
  | none => t = s ∧ ¬ StartsExpr (s.lexeme s.pos)
  | some e => e.span.Within s.pos t.pos ∧
      (t.errors = s.errors → ExprAt s.lexeme s.pos t.pos e)

def BlockRead (s : State) (b : Block) (t : State) : Prop :=
  s.pos < t.pos ∧ b.span = .clamped s.pos t.pos ∧
    (t.errors = s.errors → BlockAt s.lexeme s.pos t.pos b)

def PathRead (place : PathPlace) (segment : Ident) (s : State) (p : Path) (t : State) : Prop :=
  s.pos < t.pos ∧ p.span = .clamped segment.span.start t.pos ∧
    (t.errors = s.errors → PathAt s.lexeme place segment s.pos t.pos p)

/-- The contracts of the rules of a level. -/
structure Level.Sound (g : Level) : Prop where
  unary : ∀ s, s.Valid → Ensures g.unary s fun u? t =>
    match u? with
    | none => t = s ∧ ¬ StartsExpr (s.lexeme s.pos)
    | some u => OperandRead s u t
  binary : ∀ s left least, s.Valid →
    Ensures (g.binary left least) s (Climbed OperandRead left least s)
  block : ∀ s, s.Valid → Ensures g.block s (BlockRead s)
  path : ∀ s segment place, s.Valid →
    Ensures (g.path segment place) s (PathRead place segment s)

/-- Where no level may be opened, no rule has a value. -/
theorem Level.closed_sound : Level.closed.Sound :=
  ⟨fun _ _ => Ensures.tooDeep, fun _ _ _ _ => Ensures.tooDeep, fun _ _ => Ensures.tooDeep,
    fun _ _ _ _ => Ensures.tooDeep⟩

namespace State

/-- The same state with another number of open levels. -/
def withDepth (s : State) (d : Nat) : State :=
  { s with depth := d }

@[simp] theorem withDepth_pos (s : State) (d : Nat) : (s.withDepth d).pos = s.pos := rfl

@[simp] theorem withDepth_stream (s : State) (d : Nat) :
    (s.withDepth d).stream = s.stream := rfl

@[simp] theorem withDepth_errors (s : State) (d : Nat) :
    (s.withDepth d).errors = s.errors := rfl

@[simp] theorem withDepth_depth (s : State) (d : Nat) : (s.withDepth d).depth = d := rfl

theorem withDepth_self (s : State) : s.withDepth s.depth = s := rfl

end State

theorem Grows.withDepth {s t : State} (h : Grows s t) (d : Nat) :
    Grows (s.withDepth d) (t.withDepth d) :=
  ⟨h.stream, rfl, h.pos, h.errors, h.valid⟩

/-- How many levels are open is of no account for what was read. -/
theorem OperandRead.withDepth {s t : State} {u : Expr} (h : OperandRead s u t) (d : Nat) :
    OperandRead (s.withDepth d) u (t.withDepth d) :=
  ⟨h.1.withDepth d, h.2.1, h.2.2⟩

theorem LinksBy.withDepth {U : State → Expr → State → Prop} {s t : State} {links : Links}
    (hU : ∀ s u t d, U s u t → U (s.withDepth d) u (t.withDepth d)) (h : LinksBy U s links t)
    (d : Nat) : LinksBy U (s.withDepth d) links (t.withDepth d) := by
  induction h with
  | nil => exact .nil
  | @cons s t t' operation u links hop hu _ ih =>
    exact .cons (s := s.withDepth d) hop (hU s.next u t d hu) ih

theorem Climbed.withDepth {U : State → Expr → State → Prop} {s t : State} {left e : Expr}
    {least : Nat} (hU : ∀ s u t d, U s u t → U (s.withDepth d) u (t.withDepth d))
    (h : Climbed U left least s e t) (d : Nat) :
    Climbed U left least (s.withDepth d) e (t.withDepth d) := by
  obtain ⟨links, hlinks, hgroup, hleast, hstop⟩ := h
  exact ⟨links, hlinks.withDepth hU d, hgroup, hleast, hstop⟩

/-- An operator between operands is no end mark. -/
theorem kind_ne_endMark_of_binary? {lexeme : Lexeme} {operation : Operation}
    (h : Operation.binary? lexeme = some operation) : lexeme.kind ≠ .endMark := by
  intro hk
  simp [Operation.binary?, hk] at h

namespace LinksBy

variable {s t : State} {links : Links}

theorem grows (h : LinksBy OperandRead s links t) : Grows s t := by
  induction h with
  | nil => exact Grows.refl _
  | cons hop hu _ ih => exact ((Grows.next (kind_ne_endMark_of_binary? hop)).trans hu.1).trans ih

/-- Links that were read without a diagnostic stand in the tokens. -/
theorem linksAt (h : LinksBy OperandRead s links t) (hclean : t.errors = s.errors) :
    LinksAt s.lexeme s.pos t.pos links := by
  induction h with
  | nil => exact .nil
  | @cons s t t' operation u links hop hu hlinks ih =>
    have hs : t.errors = s.errors := hu.1.clean_left hlinks.grows hclean
    have hrest := ih (hu.1.clean_right hlinks.grows hclean)
    rw [hu.1.lexeme] at hrest
    exact .cons hop (hu.2.2 hs) hrest

/-- The operands that were read lie where they were read. -/
theorem chainAt (h : LinksBy OperandRead s links t) :
    ChainAt WithinAt s.lexeme s.pos t.pos links := by
  induction h with
  | nil => exact .nil
  | cons hop hu _ ih =>
    rw [hu.1.lexeme] at ih
    exact .cons hop hu.2.1 ih

end LinksBy

/-- A first operand and all operators behind it make an expression. -/
theorem OperandRead.expr {s t v : State} {u e : Expr} (hu : OperandRead s u t)
    (h : Climbed OperandRead u 0 t e v) : ExprRead s (some e) v := by
  obtain ⟨links, hlinks, hgroup, -, hstop⟩ := h
  obtain ⟨hgrows, hwithin, hat⟩ := hu
  refine ⟨ChainAt.within hgroup hwithin hlinks.chainAt, ?_⟩
  intro hclean
  have hlinksAt := hlinks.linksAt (hgrows.clean_right hlinks.grows hclean)
  rw [hgrows.lexeme] at hlinksAt
  refine .mk (hat (hgrows.clean_left hlinks.grows hclean)) hlinksAt hgroup ?_
  cases hb : (s.lexeme v.pos).bindingPower? with
  | none => rfl
  | some power =>
    rw [← (hgrows.trans hlinks.grows).lexeme] at hb
    exact absurd (hstop power.1 power.2 hb) (Nat.not_lt_zero _)

end Grammar

end FrontEnd
