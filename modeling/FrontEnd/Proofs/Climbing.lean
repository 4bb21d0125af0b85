import FrontEnd.Grammar.Expression
import FrontEnd.Proofs.Primitive

/-! Precedence climbing. Whatever is known of the operands, the rule that reads the operators
behind a first operand groups them by the table of precedences, takes all operators that bind
tight enough, and stops before the first one that does not. -/
namespace FrontEnd.Grammar

open Parse

section

variable (U : State → Expr → State → Prop)

/-- Operators between operands from one state to another; `U` is what is known of each operand and
the states around it. -/
inductive LinksBy : State → Links → State → Prop where
  | nil {s : State} : LinksBy s [] s
  | cons {s t t' : State} {operation : Operation} {u : Expr} {links : Links}
      (hop : Operation.binary? (s.lexeme s.pos) = some operation) (hu : U s.next u t)
      (hlinks : LinksBy t links t') :
      LinksBy s ((⟨operation, .single s.pos⟩, u) :: links) t'

/-- The token at the cursor is no operator that binds at least as tight as `least`. -/
def Stops (s : State) (least : Nat) : Prop :=
  ∀ level associativity, (s.lexeme s.pos).bindingPower? = some (level, associativity) →
    level < least

/-- The operators behind `left` that bind at least as tight as `least` were read, and joined to
the tree `e`. -/
def Climbed (left : Expr) (least : Nat) (s : State) (e : Expr) (t : State) : Prop :=
  ∃ links, LinksBy U s links t ∧ Grouped left links e ∧ (∀ l ∈ links, least ≤ l.1.level) ∧
    Stops t least

/-- Behind the links no operator follows that should have been taken into one of them. -/
def Yields (t : State) (links : Links) : Prop :=
  ∀ level associativity, (t.lexeme t.pos).bindingPower? = some (level, associativity) →
    ∀ l ∈ links, level < l.1.level ∨ (level = l.1.level ∧ associativity = .left)

/-- The right operand of an operator of the given level: a first operand and what belongs to it
rather than to that operator. -/
def RightRead (level : Nat) (s : State) (right : Expr) (t : State) : Prop :=
  ∃ first t₁ links, U s first t₁ ∧ LinksBy U t₁ links t ∧ Grouped first links right ∧
    (∀ l ∈ links, level < l.1.level ∨
      (level = l.1.level ∧ l.1.operation.associativity = .right)) ∧
    ∀ next associativity, (t.lexeme t.pos).bindingPower? = some (next, associativity) →
      next < level ∨ (next = level ∧ associativity = .left)

end

variable {U : State → Expr → State → Prop}

namespace LinksBy

variable {s t u : State} {links links' : Links}

theorem append (h : LinksBy U s links t) (h' : LinksBy U t links' u) :
    LinksBy U s (links ++ links') u := by
  induction h with
  | nil => exact h'
  | cons hop hu _ ih => exact .cons hop hu (ih h')

theorem isUnary (h : LinksBy U s links t) : ∀ l ∈ links, l.1.operation.isUnary = false := by
  induction h with
  | nil => simp
  | cons hop _ _ ih =>
    intro l hl
    rcases List.mem_cons.mp hl with rfl | hl
    · exact Operation.isUnary_of_binary? hop
    · exact ih l hl

/-- A chain that is not empty passes at least its first operator. -/
theorem pos_lt (hU : ∀ s u t, U s u t → s.pos ≤ t.pos) (h : LinksBy U s links t)
    (hne : links ≠ []) : s.pos < t.pos := by
  induction h with
  | nil => exact absurd rfl hne
  | @cons s t t' operation u links _ hu hlinks ih =>
    have hst : s.pos + 1 ≤ t.pos := hU _ _ _ hu
    cases links with
    | nil =>
      cases hlinks
      exact hst
    | cons l links => exact Nat.lt_of_succ_lt (Nat.lt_of_le_of_lt hst (ih (by simp)))

end LinksBy

/-- Before an operator that binds tight enough, climbing passes at least that operator. -/
theorem Climbed.pos_lt {s t : State} {left e : Expr} {least level : Nat}
    {associativity : Associativity} (hU : ∀ s u t, U s u t → s.pos ≤ t.pos)
    (h : Climbed U left least s e t)
    (hpower : (s.lexeme s.pos).bindingPower? = some (level, associativity))
    (hle : least ≤ level) : s.pos < t.pos := by
  obtain ⟨links, hlinks, _, _, hstop⟩ := h
  refine hlinks.pos_lt hU ?_
  rintro rfl
  cases hlinks
  have := hstop level associativity hpower
  omega

/-! ### Right operands -/

namespace RightRead

variable {s t t₁ : State} {first e right : Expr} {level : Nat}

/-- The first operand alone, before an operator that is left to what stands in front of it. -/
theorem alone (hfirst : U s first t)
    (hdone : ∀ next associativity, (t.lexeme t.pos).bindingPower? = some (next, associativity) →
      next < level ∨ (next = level ∧ associativity = .left)) :
    RightRead U level s first t :=
  ⟨first, t, [], hfirst, .nil, .operand first, by simp, hdone⟩

/-- The first operand with all operators behind it that bind tighter, where the first of them
does. -/
theorem tighter {operation : Operation} (hfirst : U s first t₁) (hlt : level < operation.level)
    (h : Climbed U first (level + 1) t₁ e t) : RightRead U level s e t := by
  obtain ⟨links, hlinks, hgroup, hleast, hstop⟩ := h
  refine ⟨first, t₁, links, hfirst, hlinks, hgroup, fun l hl => .inl (hleast l hl), ?_⟩
  intro next associativity hn
  have hle : next < level + 1 := hstop next associativity hn
  rcases Nat.lt_or_ge next level with h | h
  · exact .inl h
  · -- an operator of the same level cannot group to the right: something bound tighter
    obtain ⟨operation', hop, hnext, rfl⟩ := Lexeme.bindingPower?_eq_some hn
    refine .inr ⟨by omega, ?_⟩
    rcases Operation.associativity_eq_left_or_right (Operation.isUnary_of_binary? hop) with hl | hr
    · exact hl
    · have hlevel := Operation.level_le_of_right operation hr
      omega

/-- The first operand with all operators behind it that bind as tight, where the first of them
groups to the right. -/
theorem same {operation : Operation} (hfirst : U s first t₁)
    (hop : operation.isUnary = false) (hlevel : operation.level = level)
    (hright : operation.associativity = .right) (h : Climbed U first level t₁ e t) :
    RightRead U level s e t := by
  obtain ⟨links, hlinks, hgroup, hleast, hstop⟩ := h
  refine ⟨first, t₁, links, hfirst, hlinks, hgroup, ?_, ?_⟩
  · intro l hl
    have hle : level ≤ l.1.level := hleast l hl
    -- nothing binds tighter than what groups to the right
    have hge : l.1.level ≤ operation.level := Operation.level_le_of_right _ hright
    have heq : operation.level = l.1.level := by omega
    have hsame := Operation.associativity_eq_of_level_eq hop (hlinks.isUnary l hl) heq
    exact .inr ⟨by omega, hsame ▸ hright⟩
  · intro next associativity hn
    exact .inl (hstop next associativity hn)

/-- No operator behind a right operand goes on with it. -/
theorem settled {next : Nat} {associativity : Associativity} (h : RightRead U level s right t)
    (hpower : (t.lexeme t.pos).bindingPower? = some (next, associativity)) :
    ¬ (level < next ∨ (next = level ∧ associativity = .right)) := by
  obtain ⟨_, _, _, _, _, _, _, hdone⟩ := h
  rintro (hlt | ⟨rfl, rfl⟩)
  · have := hdone next associativity hpower
    omega
  · rcases hdone next .right hpower with hlt | ⟨-, hleft⟩
    · omega
    · cases hleft

end RightRead

/-- An operator that does not go on with the right operand of an operator of the given level is
left to what stands in front of that operand. -/
theorem left_of_not_continues {lexeme : Lexeme} {level next : Nat} {associativity : Associativity}
    (hpower : lexeme.bindingPower? = some (next, associativity)) (hlt : ¬ level < next)
    (hright : ¬ (next = level ∧ associativity = .right)) :
    next < level ∨ (next = level ∧ associativity = .left) := by
  obtain ⟨operation, hop, -, rfl⟩ := Lexeme.bindingPower?_eq_some hpower
  rcases Nat.lt_or_eq_of_le (Nat.le_of_not_lt hlt) with h | rfl
  · exact .inl h
  · refine .inr ⟨rfl, ?_⟩
    refine (Operation.associativity_eq_left_or_right
      (Operation.isUnary_of_binary? hop)).resolve_right fun hr => hright ⟨rfl, hr⟩

/-! ### Chains -/

section

variable (U : State → Expr → State → Prop)

/-- The invariant of climbing: the operators read so far are joined to the tree `e`, and none of
their operands should have taken in the operator that follows. -/
structure Climbing (left : Expr) (least : Nat) (s : State) (e : Expr) (t : State)
    (links : Links) : Prop where
  linked : LinksBy U s links t
  grouped : Grouped left links e
  least_le : ∀ l ∈ links, least ≤ l.1.level
  yields : Yields t links

end

namespace Climbing

variable {s t t₁ u : State} {left e first right : Expr} {least : Nat} {links more : Links}

theorem start (left : Expr) (least : Nat) (s : State) : Climbing U left least s left s [] where
  linked := .nil
  grouped := .operand left
  least_le := by simp
  yields := fun _ _ _ l hl => by simp at hl

theorem climbed (h : Climbing U left least s e t links) (hstop : Stops t least) :
    Climbed U left least s e t :=
  ⟨links, h.linked, h.grouped, h.least_le, hstop⟩

section

variable {operation : Operation}

/-- The next operator binds no tighter than those in front of it, and looser than what its right
operand took in, so the chain splits there. -/
theorem join (h : Climbing U left least s e t links)
    (hop : Operation.binary? (t.lexeme t.pos) = some operation) (hright : Grouped first more right)
    (hmore : ∀ l ∈ more, l.1.operation.isUnary = false)
    (htighter : ∀ l ∈ more, operation.level < l.1.level ∨
      (operation.level = l.1.level ∧ l.1.operation.associativity = .right)) :
    Grouped left (links ++ (⟨operation, .single t.pos⟩, first) :: more)
      (e.join ⟨operation, .single t.pos⟩ right) := by
  have hbetween := Operation.isUnary_of_binary? hop
  have hyields := h.yields _ _ (Lexeme.bindingPower?_of_binary? hop)
  refine .split hbetween ?loosest ?last ?first h.grouped hright
  case loosest =>
    intro l hl
    show operation.level ≤ l.1.level
    rcases List.mem_append.mp hl with hl | hl
    · have := hyields l hl
      omega
    · have := htighter l hl
      omega
  case last =>
    intro hleft l hl
    rcases htighter l hl with h | ⟨h, hr⟩
    · exact h
    · have hsame := Operation.associativity_eq_of_level_eq hbetween (hmore l hl) h
      rw [← hsame, hleft] at hr
      cases hr
  case first =>
    intro hr l hl
    rcases hyields l hl with h | ⟨-, hl'⟩
    · exact h
    · rw [hl'] at hr
      cases hr

/-- One round: the next operator, if it binds tight enough, and its right operand. -/
theorem step (h : Climbing U left least s e t links)
    (hop : Operation.binary? (t.lexeme t.pos) = some operation) (hle : least ≤ operation.level)
    (hread : RightRead U operation.level t.next right u) :
    ∃ links, Climbing U left least s (e.join ⟨operation, .single t.pos⟩ right) u links := by
  obtain ⟨first, t₁, more, hfirst, hmore, hright, htighter, hdone⟩ := hread
  have hlevels : ∀ l ∈ links ++ (⟨operation, .single t.pos⟩, first) :: more,
      operation.level ≤ l.1.level := by
    intro l hl
    rcases List.mem_append.mp hl with hl | hl
    · have := h.yields _ _ (Lexeme.bindingPower?_of_binary? hop) l hl
      omega
    · rcases List.mem_cons.mp hl with rfl | hl
      · exact Nat.le_refl _
      · have := htighter l hl
        omega
  refine ⟨_, h.linked.append (.cons hop hfirst hmore), h.join hop hright hmore.isUnary htighter,
    fun l hl => Nat.le_trans hle (hlevels l hl), ?_⟩
  intro next associativity hn l hl
  rcases hdone next associativity hn with hlt | ⟨rfl, hleft⟩
  · exact .inl (Nat.lt_of_lt_of_le hlt (hlevels l hl))
  · rcases Nat.lt_or_eq_of_le (hlevels l hl) with hlt | heq
    · exact .inl hlt
    · exact .inr ⟨heq, hleft⟩

end

end Climbing

/-! ### The rules -/

/-- Passing the token at the cursor as an operator between operands, where it is one. -/
theorem Ensures.operator_between {s : State} {operation : Operation} (hs : s.Valid)
    (h : Operation.binary? (s.lexeme s.pos) = some operation) :
    Ensures (operator .between) s fun op t =>
      op = ⟨operation, .single s.pos⟩ ∧ t = s.next := by
  have hend : s.current.kind ≠ .endMark := by
    intro hk
    have hk' : (s.lexeme s.pos).kind = .endMark := hk
    simp [Operation.binary?, hk'] at h
  unfold Grammar.operator
  refine (Ensures.advance hend).bind ?_
  rintro token t _ ⟨rfl, rfl⟩
  have hop : Operator.ofToken s.current .between = .ok ⟨operation, .single s.pos⟩ := by
    unfold Operator.ofToken
    rw [State.toLexeme_current, Operation.ofLexeme?, h, hs.index_current]
  rw [hop]
  exact Ensures.pure ⟨rfl, rfl⟩

namespace Level

/-- What climbing asks of the rules one level deeper: operands that do not lie before their place,
and climbing itself. -/
structure Climbs (U : State → Expr → State → Prop) (d : Nat) (g : Level) : Prop where
  forward : ∀ s u t, U s u t → s.pos ≤ t.pos
  unary : ∀ s, s.Valid → s.depth = d →
    Ensures g.unary s fun o t => ∀ u, o = some u → U s u t
  binary : ∀ s left least, s.Valid → s.depth = d →
    Ensures (g.binary left least) s (Climbed U left least s)

variable {g : Level} {d : Nat} {s : State}

/-- Extending a right operand: it is still the first operand, or all that belongs to it was
taken. -/
theorem Climbs.rightOperand (hg : g.Climbs U d) (hs : s.Valid) (hd : s.depth = d) (level : Nat) :
    Ensures (g.rightOperand level) s (RightRead U level s) := by
  unfold Level.rightOperand
  refine (hg.unary s hs hd).bind ?_
  intro o t₁ hst ho
  cases o with
  | none =>
    refine Ensures.current.bind ?_
    intro token t _ _
    exact Ensures.failHere _
  | some first =>
    have hfirst := ho first rfl
    -- the loop goes round at most once: what it takes leaves nothing that it would take again
    refine Ensures.loop (fun right t => (right = first ∧ t = t₁) ∨ RightRead U level s right t)
      (hst.valid hs) (.inl ⟨rfl, rfl⟩) ?_
    intro right t hgrows ht hinv
    have hdt : t.depth = d := by rw [hgrows.depth, hst.depth, hd]
    unfold operandRound
    refine Ensures.current.bind ?_
    rintro token t' _ ⟨rfl, rfl⟩
    have hpow : t'.current.bindingPower? = (t'.lexeme t'.pos).bindingPower? := rfl
    have hkept : (∀ next associativity,
        (t'.lexeme t'.pos).bindingPower? = some (next, associativity) →
          next < level ∨ (next = level ∧ associativity = .left)) →
        RightRead U level s right t' := by
      intro hdone
      rcases hinv with ⟨rfl, rfl⟩ | h
      · exact .alone hfirst hdone
      · exact h
    cases hb : t'.current.bindingPower? with
    | none =>
      refine Ensures.pure (hkept ?_)
      intro next associativity hn
      rw [← hpow, hb] at hn
      cases hn
    | some power =>
      obtain ⟨operation, hop, hlevel, hassoc⟩ := Lexeme.bindingPower?_eq_some hb
      have hbetween := Operation.isUnary_of_binary? hop
      by_cases hlt : level < power.1
      · obtain ⟨rfl, rfl⟩ := hinv.resolve_right fun h => h.settled hb (.inl hlt)
        simp only [hlt, if_true]
        refine (hg.binary t' right (level + 1) ht hdt).map ?_
        intro e u _ he
        exact ⟨he.pos_lt hg.forward hb hlt, .inr (.tighter hfirst (hlevel ▸ hlt) he)⟩
      · simp only [hlt, if_false]
        by_cases hright : power.1 = level ∧ power.2 = .right
        · obtain ⟨rfl, rfl⟩ := hinv.resolve_right fun h => h.settled hb (.inr hright)
          rw [if_pos hright]
          refine (hg.binary t' right level ht hdt).map ?_
          intro e u _ he
          exact ⟨he.pos_lt hg.forward hb (Nat.le_of_eq hright.1.symm),
            .inr (.same hfirst hbetween (hlevel.trans hright.1) (hassoc.trans hright.2) he)⟩
        · rw [if_neg hright]
          refine Ensures.pure (hkept ?_)
          intro next associativity hn
          obtain rfl : power = (next, associativity) := Option.some.inj (hb.symm.trans hn)
          exact left_of_not_continues hn hlt hright

/-- Climbing at one level, from climbing at the next. -/
theorem Climbs.binaryChain (hg : g.Climbs U d) (hs : s.Valid) (hd : s.depth = d) (left : Expr)
    (least : Nat) : Ensures (g.binaryChain left least) s (Climbed U left least s) := by
  unfold Level.binaryChain
  refine Ensures.loop (fun e t => ∃ links, Climbing U left least s e t links) hs
    ⟨[], .start left least s⟩ ?_
  rintro e t hgrows ht ⟨links, h⟩
  unfold binaryRound
  refine Ensures.current.bind ?_
  rintro token t' _ ⟨rfl, rfl⟩
  have hpow : t'.current.bindingPower? = (t'.lexeme t'.pos).bindingPower? := rfl
  cases hb : t'.current.bindingPower? with
  | none =>
    refine Ensures.pure (h.climbed ?_)
    intro level associativity hn
    rw [← hpow, hb] at hn
    cases hn
  | some power =>
    by_cases hlt : power.1 < least
    · simp only [hlt, if_true]
      refine Ensures.pure (h.climbed ?_)
      intro level associativity hn
      obtain rfl : power = (level, associativity) := Option.some.inj (hb.symm.trans hn)
      exact hlt
    · simp only [hlt, if_false]
      obtain ⟨operation, hop, hlevel, -⟩ := Lexeme.bindingPower?_eq_some hb
      rw [← hlevel] at hlt ⊢
      refine (Ensures.operator_between ht hop).bind ?_
      rintro op t₁ ht₁ ⟨rfl, rfl⟩
      have hd₁ : t'.next.depth = d := by rw [ht₁.depth, hgrows.depth, hd]
      refine (hg.rightOperand (ht₁.valid ht) hd₁ operation.level).bind ?_
      intro right u hu hright
      exact Ensures.pure ⟨hu.pos, h.step hop (Nat.le_of_not_lt hlt) hright⟩

end Level

end FrontEnd.Grammar
