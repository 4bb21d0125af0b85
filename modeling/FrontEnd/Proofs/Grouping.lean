import FrontEnd.Tree.Basic

/-! How a chain of operands and the operators between them is grouped. The tree of a chain is
given by the table of precedences alone: the chain is split at an operator that binds loosest, at
the last such operator if these group to the left and at the first if they group to the right, and
both parts are grouped in the same way. -/
namespace FrontEnd

namespace Operation

/-- How tightly the operation binds its two operands. -/
def level (operation : Operation) : Nat :=
  operation.precedence.getD 0

theorem level_eq {operation : Operation} {n : Nat} (h : operation.precedence = some n) :
    operation.level = n := by
  simp [level, h]

/-- Operations that bind equally tight group to the same side. -/
theorem associativity_eq_of_level_eq {a b : Operation} (ha : a.isUnary = false)
    (hb : b.isUnary = false) (h : a.level = b.level) : a.associativity = b.associativity := by
  simp only [level] at h
  cases a <;> cases b <;> simp_all [isUnary, precedence, associativity]

/-- Between two operands an operation groups to the left or to the right. -/
theorem associativity_eq_left_or_right {a : Operation} (h : a.isUnary = false) :
    a.associativity = .left ∨ a.associativity = .right := by
  cases a <;> simp_all [isUnary, associativity]

/-- Nothing binds tighter than an operation that groups to the right. -/
theorem level_le_of_right {a : Operation} (b : Operation) (h : a.associativity = .right) :
    b.level ≤ a.level := by
  simp only [level]
  cases a <;> cases b <;> simp_all [precedence, associativity]

theorem level_le (operation : Operation) : operation.level ≤ 14 :=
  level_le_of_right operation (show cast.associativity = .right from rfl)

/-- Operators between operands bind looser than those before them. -/
theorem level_lt_prefixPrecedence (operation : Operation) : operation.level < prefixPrecedence := by
  cases hlevel : operation.precedence with
  | none =>
    rw [level, hlevel]
    exact (by decide : 0 < prefixPrecedence)
  | some n =>
    rw [level_eq hlevel]
    exact precedence_lt_prefixPrecedence hlevel

theorem eq_cast_of_level {operation : Operation} (h : 14 ≤ operation.level) :
    operation = .cast := by
  cases operation <;> first | rfl | exact absurd h (by decide)

theorem isUnary_of_binary? {lexeme : Lexeme} {operation : Operation}
    (h : binary? lexeme = some operation) : operation.isUnary = false := by
  unfold binary? at h
  split at h
  case h_20 =>
    split at h
    · cases h
      rfl
    · cases h
  all_goals
    cases h
  all_goals rfl

theorem isUnary_of_unary? {lexeme : Lexeme} {operation : Operation}
    (h : unary? lexeme = some operation) : operation.isUnary = true := by
  unfold unary? at h
  split at h <;> cases h <;> rfl

end Operation

namespace Lexeme

/-- A lexeme binds two operands as the operation that it means between them. -/
theorem bindingPower?_eq_some {lexeme : Lexeme} {level : Nat} {associativity : Associativity}
    (h : lexeme.bindingPower? = some (level, associativity)) :
    ∃ operation, Operation.binary? lexeme = some operation ∧
      operation.level = level ∧ operation.associativity = associativity := by
  unfold bindingPower? at h
  cases hb : Operation.binary? lexeme with
  | none => simp [hb] at h
  | some operation =>
    cases hp : operation.precedence with
    | none => simp [hb, hp] at h
    | some level' =>
      simp only [hb, hp, Option.some.injEq, Prod.mk.injEq] at h
      exact ⟨operation, rfl, (Operation.level_eq hp).trans h.1, h.2⟩

theorem bindingPower?_of_binary? {lexeme : Lexeme} {operation : Operation}
    (h : Operation.binary? lexeme = some operation) :
    lexeme.bindingPower? = some (operation.level, operation.associativity) := by
  have hu := Operation.isUnary_of_binary? h
  unfold bindingPower?
  simp only [h]
  cases operation <;> simp_all [Operation.isUnary, Operation.precedence, Operation.level]

end Lexeme

namespace Operator

/-- How tightly the operator binds its two operands. -/
def level (op : Operator) : Nat :=
  op.operation.level

end Operator

/-- The operator leaves the operand behind it to the next operator: that one binds tighter, or as
tight and groups to the right. -/
def Operator.YieldsTo (op next : Operator) : Prop :=
  op.level < next.level ∨ (op.level = next.level ∧ next.operation.associativity = .right)

/-- The operators behind a first operand, each with the operand behind it. -/
abbrev Links : Type := List (Operator × Expr)

/-- The tree of a first operand and the links behind it. -/
inductive Grouped : Expr → Links → Expr → Prop where
  | operand (u : Expr) : Grouped u [] u
  | split {u v left right : Expr} {op : Operator} {before after : Links}
      (between : op.operation.isUnary = false)
      (loosest : ∀ l ∈ before ++ after, op.level ≤ l.1.level)
      (last : op.operation.associativity = .left → ∀ l ∈ after, op.level < l.1.level)
      (first : op.operation.associativity = .right → ∀ l ∈ before, op.level < l.1.level)
      (hleft : Grouped u before left) (hright : Grouped v after right) :
      Grouped u (before ++ (op, v) :: after) (left.join op right)

namespace Grouped

/-- Two links of one chain do not both qualify for the split. -/
theorem not_before {op op' : Operator} {v v' : Expr} {mid after' before : Links}
    (h : op.operation.isUnary = false) (h' : op'.operation.isUnary = false)
    (loosest : ∀ l ∈ before ++ (mid ++ (op', v') :: after'), op.level ≤ l.1.level)
    (last : op.operation.associativity = .left →
      ∀ l ∈ mid ++ (op', v') :: after', op.level < l.1.level)
    (loosest' : ∀ l ∈ (before ++ (op, v) :: mid) ++ after', op'.level ≤ l.1.level)
    (first' : op'.operation.associativity = .right →
      ∀ l ∈ before ++ (op, v) :: mid, op'.level < l.1.level) : False := by
  have hle : op.level ≤ op'.level := loosest (op', v') (by simp)
  have hge : op'.level ≤ op.level := loosest' (op, v) (by simp)
  have hassoc := Operation.associativity_eq_of_level_eq h h' (Nat.le_antisymm hle hge)
  rcases Operation.associativity_eq_left_or_right h with hl | hr
  · have hlt : op.level < op'.level := last hl (op', v') (by simp)
    exact absurd hge (Nat.not_le_of_lt hlt)
  · have hlt : op'.level < op.level := first' (hassoc ▸ hr) (op, v) (by simp)
    exact absurd hle (Nat.not_le_of_lt hlt)

/-- A chain is split at one link. -/
theorem split_unique {op op' : Operator} {v v' : Expr} {before before' after after' : Links}
    (h : before ++ (op, v) :: after = before' ++ (op', v') :: after')
    (hop : op.operation.isUnary = false) (hop' : op'.operation.isUnary = false)
    (loosest : ∀ l ∈ before ++ after, op.level ≤ l.1.level)
    (last : op.operation.associativity = .left → ∀ l ∈ after, op.level < l.1.level)
    (first : op.operation.associativity = .right → ∀ l ∈ before, op.level < l.1.level)
    (loosest' : ∀ l ∈ before' ++ after', op'.level ≤ l.1.level)
    (last' : op'.operation.associativity = .left → ∀ l ∈ after', op'.level < l.1.level)
    (first' : op'.operation.associativity = .right → ∀ l ∈ before', op'.level < l.1.level) :
    before = before' ∧ (op, v) = (op', v') ∧ after = after' := by
  -- two links of one chain are the same, or the first stands before the second, or behind it
  rcases List.append_eq_append_iff.mp h with ⟨mid, hb, ha⟩ | ⟨mid, hb, ha⟩
  · cases mid with
    | nil =>
      rw [List.append_nil] at hb
      rw [List.nil_append, List.cons.injEq] at ha
      exact ⟨hb.symm, ha⟩
    | cons m mid =>
      simp only [List.cons_append, List.cons.injEq] at ha
      obtain ⟨rfl, rfl⟩ := ha
      subst hb
      exact (not_before hop hop' loosest last loosest' first').elim
  · cases mid with
    | nil =>
      rw [List.append_nil] at hb
      rw [List.nil_append, List.cons.injEq] at ha
      exact ⟨hb, ha.1.symm, ha.2.symm⟩
    | cons m mid =>
      simp only [List.cons_append, List.cons.injEq] at ha
      obtain ⟨rfl, rfl⟩ := ha
      subst hb
      exact (not_before hop' hop loosest' last' loosest first).elim

/-- A chain has one tree. -/
theorem unique {u e : Expr} {links : Links} (h : Grouped u links e) :
    ∀ {e' : Expr}, Grouped u links e' → e = e' := by
  induction h with
  | operand u =>
    intro e' h'
    generalize hl : ([] : Links) = links at h'
    cases h' with
    | operand => rfl
    | split => simp at hl
  | @split u v left right op before after hop loosest last first _ _ ihleft ihright =>
    intro e' h'
    generalize hl : before ++ (op, v) :: after = links at h'
    cases h' with
    | operand => simp at hl
    | split hop' loosest' last' first' hleft' hright' =>
      obtain ⟨rfl, hlink, rfl⟩ :=
        split_unique hl hop hop' loosest last first loosest' last' first'
      obtain ⟨rfl, rfl⟩ := Prod.mk.inj hlink
      rw [ihleft hleft', ihright hright']

/-- Every chain of operators between operands has an operator to split at. -/
theorem exists_split {links : Links} (hlinks : ∀ l ∈ links, l.1.operation.isUnary = false)
    (hne : links ≠ []) :
    ∃ before op v after, links = before ++ (op, v) :: after ∧
      (∀ l ∈ before ++ after, op.level ≤ l.1.level) ∧
      (op.operation.associativity = .left → ∀ l ∈ after, op.level < l.1.level) ∧
      (op.operation.associativity = .right → ∀ l ∈ before, op.level < l.1.level) := by
  induction links with
  | nil => exact absurd rfl hne
  | cons l links ih =>
    by_cases hnil : links = []
    · subst hnil
      exact ⟨[], l.1, l.2, [], rfl, by simp, by simp, by simp⟩
    · obtain ⟨before, op, v, after, rfl, loosest, last, first⟩ :=
        ih (fun l hl => hlinks l (List.mem_cons_of_mem _ hl)) hnil
      have hl : l.1.operation.isUnary = false := hlinks l List.mem_cons_self
      have hop : op.operation.isUnary = false := hlinks (op, v) (by simp)
      -- the operator found so far stays unless the new one binds looser, or as loose and groups
      -- to the right
      by_cases hstay : op.level < l.1.level ∨
          (op.level = l.1.level ∧ op.operation.associativity = .left)
      · refine ⟨l :: before, op, v, after, rfl, ?_, last, ?_⟩
        · intro l' hl'
          rcases List.mem_cons.mp hl' with rfl | hl'
          · omega
          · exact loosest l' hl'
        · intro hr l' hl'
          rcases List.mem_cons.mp hl' with rfl | hl'
          · rcases hstay with hlt | ⟨-, hleft⟩
            · exact hlt
            · rw [hr] at hleft
              cases hleft
          · exact first hr l' hl'
      · have hle : l.1.level ≤ op.level := by omega
        have hall : ∀ l' ∈ before ++ (op, v) :: after, op.level ≤ l'.1.level := by
          intro l' hl'
          simp only [List.mem_append, List.mem_cons] at hl'
          rcases hl' with hl' | rfl | hl'
          · exact loosest l' (List.mem_append_left _ hl')
          · exact Nat.le_refl _
          · exact loosest l' (List.mem_append_right _ hl')
        refine ⟨[], l.1, l.2, _, rfl, ?_, ?_, by simp⟩
        · intro l' hl'
          exact Nat.le_trans hle (hall l' hl')
        · intro hleft l' hl'
          refine Nat.lt_of_lt_of_le ?_ (hall l' hl')
          refine Nat.lt_of_le_of_ne hle ?_
          intro heq
          refine hstay (.inr ⟨heq.symm, ?_⟩)
          rw [Operation.associativity_eq_of_level_eq hop hl heq.symm, hleft]

/-- Every chain of operators between operands has a tree. -/
theorem exists_tree (n : Nat) :
    ∀ {links : Links} (u : Expr), links.length ≤ n →
      (∀ l ∈ links, l.1.operation.isUnary = false) → ∃ e, Grouped u links e := by
  -- on the length, since the parts of a split are no tails of the chain
  induction n with
  | zero =>
    intro links u hn _
    obtain rfl := List.eq_nil_of_length_eq_zero (Nat.le_zero.mp hn)
    exact ⟨u, .operand u⟩
  | succ n ih =>
    intro links u hn hlinks
    by_cases hnil : links = []
    · subst hnil
      exact ⟨u, .operand u⟩
    · obtain ⟨before, op, v, after, rfl, loosest, last, first⟩ := exists_split hlinks hnil
      simp only [List.length_append, List.length_cons] at hn
      obtain ⟨left, hleft⟩ := ih u (show before.length ≤ n by omega) fun l hl =>
        hlinks l (List.mem_append_left _ hl)
      obtain ⟨right, hright⟩ := ih v (show after.length ≤ n by omega) fun l hl =>
        hlinks l (List.mem_append_right _ (List.mem_cons_of_mem _ hl))
      exact ⟨_, .split (hlinks (op, v) (by simp)) loosest last first hleft hright⟩

/-- The first operator of a chain takes as its right operand the links that it yields to, and the
tree so far is the first operand of what is left. -/
theorem peel {u v e : Expr} {op : Operator} {links : Links}
    (hlinks : ∀ l ∈ (op, v) :: links, l.1.operation.isUnary = false)
    (h : Grouped u ((op, v) :: links) e) :
    ∃ more rest right, links = more ++ rest ∧ Grouped v more right ∧
      Grouped (u.join op right) rest e ∧ (∀ l ∈ more, op.YieldsTo l.1) ∧
      ∀ l ∈ rest.head?, ¬ op.YieldsTo l.1 := by
  -- on the tree; only its left part begins with the same link
  generalize hl : (op, v) :: links = all at h
  induction h generalizing links with
  | operand => cases hl
  | @split u v' left right op' before after hop' loosest last first hleft hright ihleft _ =>
    cases before with
    | nil =>
      -- the split is at the first operator: everything behind it is its right operand
      simp only [List.nil_append, List.cons.injEq, Prod.mk.injEq] at hl
      obtain ⟨⟨rfl, rfl⟩, rfl⟩ := hl
      obtain rfl := (Grouped.operand u).unique hleft
      refine ⟨links, [], right, by simp, hright, .operand _, ?_, by simp⟩
      intro l hl
      have hle : op.level ≤ l.1.level := loosest l (by simpa using hl)
      rcases Nat.lt_or_eq_of_le hle with hlt | heq
      · exact .inl hlt
      · refine .inr ⟨heq, ?_⟩
        have hassoc := Operation.associativity_eq_of_level_eq hop'
          (hlinks l (List.mem_cons_of_mem _ hl)) heq
        rcases Operation.associativity_eq_left_or_right hop' with hl' | hr
        · exact absurd (last hl' l hl) (by omega)
        · exact hassoc ▸ hr
    | cons l before =>
      -- the split is further on: what the first operator takes lies in the left part
      simp only [List.cons_append, List.cons.injEq] at hl
      obtain ⟨rfl, rfl⟩ := hl
      have hbefore : ∀ l ∈ (op, v) :: before, l.1.operation.isUnary = false := by
        intro l hl
        exact hlinks l (List.mem_append_left _ hl)
      obtain ⟨more, rest, right', rfl, hmore, hrest, hyields, hhead⟩ := ihleft hbefore rfl
      refine ⟨more, rest ++ (op', v') :: after, right', by simp, hmore, ?_, hyields, ?_⟩
      · refine .split hop' ?_ last ?_ hrest hright
        · intro l hl
          refine loosest l ?_
          simp only [List.mem_append, List.mem_cons] at hl ⊢
          rcases hl with hl | hl
          · exact .inl (.inr (.inr hl))
          · exact .inr hl
        · intro hr l hl
          exact first hr l (by simp [hl])
      · cases rest with
        | cons l rest => exact hhead
        | nil =>
          -- the operator at the split comes next, and it binds no tighter than the first one
          intro l hl
          simp only [List.nil_append, List.head?_cons, Option.mem_some_iff] at hl
          subst hl
          have hle : op'.level ≤ op.level := loosest (op, v) (by simp)
          rintro (hlt | ⟨heq, hr⟩)
          · exact absurd hlt (Nat.not_lt_of_le hle)
          · have hlt : op'.level < op.level := first hr (op, v) (by simp)
            exact absurd heq (Nat.ne_of_gt hlt)

end Grouped

end FrontEnd
