import FrontEnd.Proofs.Acceptance.Basic

/-! Precedence climbing reads every chain. Given the rule for operands and, one level deeper,
climbing itself, the operators that bind tight enough are all taken, and the tree is the one that
the table of precedences asks for. How many levels that takes is left to a budget: what is asked of
the chain here, and what is asked of the parts of it that are read one level deeper. -/
namespace FrontEnd.Grammar

open Parse

variable {V : (Nat → Lexeme) → Nat → Nat → Expr → Prop}

namespace ChainAt

variable {T : Nat → Lexeme} {i j : Nat} {links : Links}

/-- Behind the links that an operator yields to stands no operator that it yields to. -/
theorem not_yields {op : Operator} {least : Nat} {s : State} (h : ChainAt V s.lexeme i j links)
    (hhead : ∀ l ∈ links.head?, ¬ op.YieldsTo l.1) (hstop : Stops (s.moveTo j) least)
    (hle : least ≤ op.level) (next : Nat) (associativity : Associativity)
    (hnext : (s.lexeme i).bindingPower? = some (next, associativity)) :
    ¬ op.level < next ∧ ¬ (next = op.level ∧ associativity = .right) := by
  cases links with
  | nil =>
    cases h
    have hlt : next < least := hstop next associativity hnext
    exact ⟨by omega, by omega⟩
  | cons l links =>
    rw [h.bindingPower?_head] at hnext
    cases hnext
    have hno := hhead l rfl
    refine ⟨fun hlt => hno (.inl hlt), ?_⟩
    rintro ⟨heq, hr⟩
    exact hno (.inr ⟨heq.symm, hr⟩)

end ChainAt

/-- The links that an operator yields to are read down to one precedence: if the first of them
binds tighter than the operator then all do, and else all bind as tight. -/
theorem yields_least {op : Operator} {l : Operator × Expr} {more : Links}
    (h : ∀ l' ∈ l :: more, op.YieldsTo l'.1) :
    if op.level < l.1.level then ∀ l' ∈ l :: more, op.level < l'.1.level
    else ∀ l' ∈ l :: more, op.level = l'.1.level ∧ l'.1.operation.associativity = .right := by
  split
  · rename_i hlt
    intro l' hl'
    rcases h l' hl' with hlt' | ⟨heq, hr⟩
    · exact hlt'
    · -- nothing binds tighter than what groups to the right
      have hle : l.1.level ≤ l'.1.level := Operation.level_le_of_right _ hr
      omega
  · rename_i hlt
    obtain ⟨heq, hr⟩ := (h l List.mem_cons_self).resolve_left hlt
    intro l' hl'
    have hle : l'.1.level ≤ l.1.level := Operation.level_le_of_right _ hr
    rcases h l' hl' with hlt' | hsame
    · omega
    · exact hsame

/-- What has to hold of a chain, given the precedence down to which it is read, and of the parts
of it that are read one level deeper. -/
structure Budget (fits inner : Nat → Links → Prop) : Prop where
  tighter : ∀ {least : Nat} {op : Operator} {u : Expr} {more rest : Links},
    fits least ((op, u) :: (more ++ rest)) → least ≤ op.level → more ≠ [] →
      (∀ l ∈ more, op.level < l.1.level) → inner (op.level + 1) more
  same : ∀ {least : Nat} {op : Operator} {u : Expr} {more rest : Links},
    fits least ((op, u) :: (more ++ rest)) → least ≤ op.level → more ≠ [] →
      (∀ l ∈ more, op.level = l.1.level ∧ l.1.operation.associativity = .right) →
      inner op.level more
  rest : ∀ {least : Nat} {op : Operator} {u : Expr} {more rest : Links},
    fits least ((op, u) :: (more ++ rest)) → least ≤ op.level →
      (∀ l ∈ rest.head?, ¬ op.YieldsTo l.1) → (∀ l ∈ rest, least ≤ l.1.level) → fits least rest

variable {bad : Diagnostic → Prop}

theorem run_operator_between {s : State} {operation : Operation} (hs : s.Valid)
    (h : Operation.binary? (s.lexeme s.pos) = some operation) :
    operator .between s = .ok ⟨operation, .single s.pos⟩ s.next := by
  have hop : Operator.ofToken s.current .between = .ok ⟨operation, .single s.pos⟩ := by
    unfold Operator.ofToken
    rw [State.toLexeme_current, Operation.ofLexeme?, h, hs.index_current]
  unfold operator
  rw [run_bind (run_advance (kind_ne_endMark_of_binary? h)), hop]
  rfl

namespace Level

variable {g : Level} [g.Keeps]

omit [g.Keeps] in
theorem run_operandRound_done {s : State} {op : Operator} {right : Expr}
    (h : ∀ next associativity, (s.lexeme s.pos).bindingPower? = some (next, associativity) →
      ¬ op.level < next ∧ ¬ (next = op.level ∧ associativity = .right)) :
    g.operandRound op.level right s = .ok (.done right) s := by
  unfold operandRound
  rw [run_bind run_current]
  have hpow : s.current.bindingPower? = (s.lexeme s.pos).bindingPower? := rfl
  rw [hpow]
  cases hb : (s.lexeme s.pos).bindingPower? with
  | none => rfl
  | some power =>
    obtain ⟨hlt, hsame⟩ := h power.1 power.2 hb
    simp only [hlt, hsame, if_false, pure_apply]

omit [g.Keeps] in
/-- A right operand that goes on: the rule one level deeper is asked for operators that bind
tighter, or as tight if these group to the right. -/
theorem run_operandRound_again {s : State} {op next : Operator} {right : Expr}
    (hnext : (s.lexeme s.pos).bindingPower? = some (next.level, next.operation.associativity))
    (h : op.YieldsTo next) :
    g.operandRound op.level right s =
      (Round.again <$> g.binary right (if op.level < next.level then op.level + 1 else op.level) :
        Parse (Round Expr Expr)) s := by
  unfold operandRound
  rw [run_bind run_current]
  have hpow : s.current.bindingPower? = (s.lexeme s.pos).bindingPower? := rfl
  rw [hpow, hnext]
  by_cases hlt : op.level < next.level
  · simp only [hlt, if_true]
  · have hsame := h.resolve_left hlt
    have hsame' : next.level = op.level ∧ next.operation.associativity = .right :=
      ⟨hsame.1.symm, hsame.2⟩
    simp only [if_neg hlt, if_pos hsame']

theorem achieves_rightOperand (op : Operator) {s : State} {m k : Nat} {u right : Expr}
    {more : Links} (hunary : Achieves bad g.unary s (some u) (s.moveTo m))
    (hmore : ChainAt V s.lexeme m k more) (hgroup : Grouped u more right)
    (hyields : ∀ l ∈ more, op.YieldsTo l.1)
    (hbehind : ∀ next associativity, (s.lexeme k).bindingPower? = some (next, associativity) →
      ¬ op.level < next ∧ ¬ (next = op.level ∧ associativity = .right))
    (hbinary : ∀ l ∈ more.head?, (s.moveTo m).Valid →
      Achieves bad (g.binary u (if op.level < l.1.level then op.level + 1 else op.level))
        (s.moveTo m) right (s.moveTo k)) :
    Achieves bad (g.rightOperand op.level) s right (s.moveTo k) := by
  unfold rightOperand
  refine hunary.bind ?_ (by rintro (_ | u) <;> infer_instance)
  intro hv
  show Achieves bad (loopFor (g.operandRound op.level) _ u) (s.moveTo m) right (s.moveTo k)
  cases more with
  | nil =>
    cases hmore
    obtain rfl := (Grouped.operand u).unique hgroup
    exact Achieves.done (.inl ⟨run_operandRound_done hbehind, hv⟩) inferInstance
  | cons l more =>
    -- two rounds are enough: one that goes on and one that stops
    obtain ⟨rounds, hrounds⟩ : ∃ rounds, (s.moveTo m).remaining = rounds + 1 := by
      have hle : m ≤ s.stream.limit := hv
      have hsize := s.stream.limit_lt_size
      refine ⟨s.stream.tokens.size - m - 1, ?_⟩
      show s.stream.tokens.size - m = _
      omega
    have hround : Achieves bad (g.operandRound op.level u) (s.moveTo m) (.again right)
        (s.moveTo k) := by
      unfold Achieves
      rw [run_operandRound_again (s := s.moveTo m) hmore.bindingPower?_head
        (hyields l (List.mem_cons_self))]
      exact (hbinary l rfl hv).map
    rw [hrounds]
    refine hround.again ?_ inferInstance
    intro hk
    exact Achieves.done (.inl ⟨run_operandRound_done hbehind, hk⟩) inferInstance

omit [g.Keeps] in
theorem run_binaryRound_done {s : State} {least : Nat} {left : Expr} (h : Stops s least) :
    g.binaryRound least left s = .ok (.done left) s := by
  unfold binaryRound
  rw [run_bind run_current]
  have hpow : s.current.bindingPower? = (s.lexeme s.pos).bindingPower? := rfl
  rw [hpow]
  cases hb : (s.lexeme s.pos).bindingPower? with
  | none => rfl
  | some power =>
    have hlt : power.1 < least := h power.1 power.2 hb
    simp only [if_pos hlt, pure_apply]

omit [g.Keeps] in
theorem run_binaryRound_again {s : State} (hs : s.Valid) {least : Nat} {left : Expr}
    {operation : Operation} (hop : Operation.binary? (s.lexeme s.pos) = some operation)
    (hle : least ≤ operation.level) :
    g.binaryRound least left s = (g.rightOperand operation.level >>= fun right =>
      pure (Round.again (left.join ⟨operation, .single s.pos⟩ right))) s.next := by
  unfold binaryRound
  rw [run_bind run_current]
  have hpow : s.current.bindingPower? =
      some (operation.level, operation.associativity) := Lexeme.bindingPower?_of_binary? hop
  rw [hpow]
  simp only [if_neg (Nat.not_lt_of_le hle)]
  rw [run_bind (run_operator_between hs hop)]

/-- What climbing asks of the rules one level deeper: operands, which take up tokens, and climbing
itself over the parts of a chain that are within the budget. -/
structure ReadsChains (bad : Diagnostic → Prop) (V : (Nat → Lexeme) → Nat → Nat → Expr → Prop)
    (fits inner : Nat → Links → Prop) (d : Nat) (g : Level) : Prop where
  budget : Budget fits inner
  forward : ∀ T i j u, V T i j u → i < j
  unary : ∀ {s : State} {least : Nat} {op : Operator} {u : Expr} {links : Links} {k : Nat},
    fits least ((op, u) :: links) → least ≤ op.level → s.Valid → s.depth = d →
    V s.lexeme s.pos k u → Achieves bad g.unary s (some u) (s.moveTo k)
  binary : ∀ {s : State} {least : Nat} {left e : Expr} {links : Links} {k : Nat},
    s.Valid → s.depth = d → ChainAt V s.lexeme s.pos k links → Grouped left links e →
    (∀ l ∈ links, least ≤ l.1.level) → Stops (s.moveTo k) least → inner least links →
    Achieves bad (g.binary left least) s e (s.moveTo k)

variable {fits inner : Nat → Links → Prop} {d : Nat}

omit [g.Keeps] in
/-- The links that an operator yields to are read one level deeper. -/
theorem ReadsChains.deeper (hg : g.ReadsChains bad V fits inner d)
    {s : State} {least m k : Nat} {op : Operator} {u right : Expr} {more rest : Links}
    (hd : s.depth = d) (hmore : ChainAt V s.lexeme m k more) (hgroup : Grouped u more right)
    (hfits : fits least ((op, u) :: (more ++ rest))) (hle : least ≤ op.level)
    (hyields : ∀ l ∈ more, op.YieldsTo l.1)
    (hbehind : ∀ next associativity, (s.lexeme k).bindingPower? = some (next, associativity) →
      ¬ op.level < next ∧ ¬ (next = op.level ∧ associativity = .right)) :
    ∀ l ∈ more.head?, (s.moveTo m).Valid →
      Achieves bad (g.binary u (if op.level < l.1.level then op.level + 1 else op.level))
        (s.moveTo m) right (s.moveTo k) := by
  intro l hl hm
  cases more with
  | nil => cases hl
  | cons l' more =>
    obtain rfl : l' = l := by simpa using hl
    have hall := yields_least hyields
    by_cases hlt : op.level < l'.1.level
    · rw [if_pos hlt] at hall ⊢
      refine hg.binary (s := s.moveTo m) hm hd hmore hgroup hall ?_
        (hg.budget.tighter hfits hle (List.cons_ne_nil _ _) hall)
      intro next associativity hnext
      have := (hbehind next associativity hnext).1
      omega
    · rw [if_neg hlt] at hall ⊢
      refine hg.binary (s := s.moveTo m) hm hd hmore hgroup ?_ ?_
        (hg.budget.same hfits hle (List.cons_ne_nil _ _) hall)
      · intro l hl
        exact Nat.le_of_eq (hall l hl).1
      · intro next associativity hnext
        obtain ⟨hle', hsame⟩ := hbehind next associativity hnext
        refine Nat.lt_of_le_of_ne (Nat.le_of_not_lt hle') ?_
        -- an operator as tight as these would group to the right as they do
        intro hnext'
        obtain ⟨operation, hop, hlevel, hassoc⟩ := Lexeme.bindingPower?_eq_some hnext
        obtain ⟨heq, hr⟩ := hall l' List.mem_cons_self
        have hlevels : operation.level = l'.1.operation.level := by
          rw [hlevel, hnext']
          exact heq
        have hright := Operation.associativity_eq_of_level_eq (Operation.isUnary_of_binary? hop)
          (hmore.isUnary l' List.mem_cons_self) hlevels
        exact hsame ⟨hnext', by rw [← hassoc, hright, hr]⟩

/-- Every chain of operators that bind at least as tight as `least` is read to its end. -/
theorem ReadsChains.binaryRounds (hg : g.ReadsChains bad V fits inner d) {least : Nat} :
    ∀ (n : Nat) {links : Links} {s : State} {left e : Expr} {j rounds : Nat},
      links.length ≤ n → s.Valid → s.depth = d → ChainAt V s.lexeme s.pos j links →
      Grouped left links e → (∀ l ∈ links, least ≤ l.1.level) → Stops (s.moveTo j) least →
      fits least links → s.remaining < rounds →
      Achieves bad (loopFor (g.binaryRound least) rounds left) s e (s.moveTo j) := by
  intro n
  induction n with
  | zero =>
    intro links s left e j rounds hn hs _ hlinks hgroup _ hstop _ hr
    obtain rfl := List.eq_nil_of_length_eq_zero (Nat.le_zero.mp hn)
    obtain ⟨rounds, rfl⟩ := Nat.exists_eq_succ_of_ne_zero (Nat.ne_zero_of_lt hr)
    cases hlinks
    obtain rfl := (Grouped.operand left).unique hgroup
    exact Achieves.done (.inl ⟨run_binaryRound_done hstop, hs⟩) inferInstance
  | succ n ih =>
    intro links s left e j rounds hn hs hd hlinks hgroup hleast hstop hfits hr
    obtain ⟨rounds, rfl⟩ := Nat.exists_eq_succ_of_ne_zero (Nat.ne_zero_of_lt hr)
    cases links with
    | nil => exact ih (by simp : ([] : Links).length ≤ n) hs hd hlinks hgroup hleast hstop hfits hr
    | cons l links =>
      have hbetween := hlinks.isUnary
      cases hlinks with
      | @cons _ m _ operation u _ hop hu hlinks =>
        -- the first operator takes the links that it yields to, and the rest is read from there
        obtain ⟨more, rest, right, rfl, hmore, hrest, hyields, hhead⟩ := hgroup.peel hbetween
        obtain ⟨k, hmoreAt, hrestAt⟩ := hlinks.append_inv
        have hle : least ≤ operation.level := hleast _ List.mem_cons_self
        have hend := kind_ne_endMark_of_binary? hop
        have hbehind := hrestAt.not_yields hhead hstop hle
        have hright : Achieves bad (g.rightOperand operation.level) s.next right (s.moveTo k) :=
          achieves_rightOperand ⟨operation, .single s.pos⟩
            (hg.unary hfits hle (hs.next hend) hd hu) hmoreAt hmore hyields hbehind
            (hg.deeper hd hmoreAt hmore hfits hle hyields hbehind)
        have hround : Achieves bad (g.binaryRound least left) s
            (.again (left.join ⟨operation, .single s.pos⟩ right)) (s.moveTo k) := by
          unfold Achieves
          rw [run_binaryRound_again hs hop hle]
          exact hright.bind Achieves.pure inferInstance
        refine hround.again ?_ inferInstance
        intro hk
        have hlt : s.pos < k := by
          have := hg.forward _ _ _ _ hu
          have := hmoreAt.le hg.forward
          omega
        refine ih (s := s.moveTo k) ?_ hk hd hrestAt hrest ?_ hstop ?_ ?_
        · simp only [List.length_cons, List.length_append] at hn
          omega
        · intro l hl
          exact hleast l (by simp [hl])
        · exact hg.budget.rest hfits hle hhead fun l hl => hleast l (by simp [hl])
        · exact remaining_moveTo_lt hs hend hr hlt

/-- Climbing at one level, from climbing at the next. -/
theorem ReadsChains.binaryChain (hg : g.ReadsChains bad V fits inner d) {least : Nat}
    {s : State} {left e : Expr} {links : Links} {j : Nat} (hs : s.Valid) (hd : s.depth = d)
    (hlinks : ChainAt V s.lexeme s.pos j links) (hgroup : Grouped left links e)
    (hleast : ∀ l ∈ links, least ≤ l.1.level) (hstop : Stops (s.moveTo j) least)
    (hfits : fits least links) :
    Achieves bad (g.binaryChain left least) s e (s.moveTo j) :=
  hg.binaryRounds links.length (Nat.le_refl _) hs hd hlinks hgroup hleast hstop hfits
    (Nat.lt_succ_self _)

end Level

end FrontEnd.Grammar
