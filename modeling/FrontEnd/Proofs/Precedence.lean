import FrontEnd.Proofs.Acceptance.Climbing
import FrontEnd.Tree.Outline

/-! Expressions are grouped by the table of precedences. Whatever the operands are, an expression
that is read is the tree of its operands and operators; and if the operands are single tokens the
expression is always read, however long it is, as long as casts are not piled up. -/
namespace FrontEnd.Grammar

open Parse

/-- The rule for operands, run from `s` at some depth, has read `u` and left `t`. -/
def UnaryRun (s : State) (u : Expr) (t : State) : Prop :=
  s.pos ≤ t.pos ∧ ∃ d, atDepth (·.unary) (s.withDepth d) = .ok (some u) (t.withDepth d)

theorem UnaryRun.withDepth {s t : State} {u : Expr} (h : UnaryRun s u t) (d : Nat) :
    UnaryRun (s.withDepth d) u (t.withDepth d) :=
  h

theorem ensures_unaryRun {s : State} {room : Nat} (hs : s.Valid)
    (hd : s.depth + room = maxDepth) :
    Ensures (Level.withRoom room).unary s fun u? t => ∀ u, u? = some u → UnaryRun s u t := by
  refine ((Level.withRoom_sound room).unary s hs).run.mono ?_
  rintro u? t hst ⟨-, hrun⟩ u rfl
  refine ⟨hst.pos, s.depth, ?_⟩
  have hroom : maxDepth - s.depth = room := by omega
  have ht : t.withDepth s.depth = t := by
    rw [← hst.depth, State.withDepth_self]
  show (Level.withRoom (maxDepth - s.depth)).unary s = .ok (some u) (t.withDepth s.depth)
  rw [hroom, hrun, ht]

/-- At every depth, climbing joins operands that the rule for operands has read. -/
theorem ensures_binary_unaryRun (room : Nat) :
    ∀ {s : State} (left : Expr) (least : Nat), s.Valid → s.depth + room = maxDepth →
      Ensures ((Level.withRoom room).binary left least) s (Climbed UnaryRun left least s) := by
  induction room with
  | zero =>
    intro s left least _ _
    exact Ensures.tooDeep
  | succ room ih =>
    intro s left least hs hd
    have hclimbs : (Level.withRoom room).Climbs UnaryRun (s.depth + 1) :=
      { forward := fun _ _ _ h => h.1
        unary := fun t ht hdepth => ensures_unaryRun ht (by omega)
        binary := fun t left least ht hdepth => ih left least ht (by omega) }
    refine Ensures.nested_withDepth
      (hclimbs.binaryChain (s := s.withDepth (s.depth + 1)) hs rfl left least) ?_
    intro e t h _
    exact h.withDepth (fun _ _ _ d h => h.withDepth d) s.depth

/-- An expression is the tree of the operands that were read and the operators between them, and no
operator follows it. -/
theorem run_expression_climbed {s t : State} {e : Expr} (hs : s.Valid)
    (hrun : expression s = .ok (some e) t) :
    ∃ u s₁ links, UnaryRun s u s₁ ∧ LinksBy UnaryRun s₁ links t ∧ Grouped u links e ∧
      (t.lexeme t.pos).bindingPower? = none := by
  have hclosed : s.depth < maxDepth := by
    refine Nat.lt_of_not_le ?_
    intro hdepth
    have hroom : maxDepth - s.depth = 0 := by omega
    have herror : expression s = tooDeep s := by
      unfold expression atDepth
      rw [hroom]
      rfl
    rw [herror] at hrun
    cases hrun
  have hroom : s.depth + (maxDepth - s.depth) = maxDepth := by omega
  have hexpr : Ensures expression s fun e? t => ∀ e, e? = some e →
      ∃ u s₁, UnaryRun s u s₁ ∧ Climbed UnaryRun u 0 s₁ e t := by
    unfold expression atDepth
    refine Ensures.bind (ensures_unaryRun hs hroom) ?_
    rintro (_ | u) s₁ hs₁ hu
    · exact Ensures.pure (by simp)
    · refine (ensures_binary_unaryRun _ u 0 (hs₁.valid hs) (by rw [hs₁.depth, hroom])).map ?_
      intro e t _ he e' he'
      cases he'
      exact ⟨u, s₁, hu u rfl, he⟩
  obtain ⟨u, s₁, hu, links, hlinks, hgroup, -, hstop⟩ := (hexpr.ok hrun).2 e rfl
  refine ⟨u, s₁, links, hu, hlinks, hgroup, ?_⟩
  cases hb : (t.lexeme t.pos).bindingPower? with
  | none => rfl
  | some power => exact absurd (hstop power.1 power.2 hb) (Nat.not_lt_zero _)

/-- A literal or a name. -/
inductive AtomAt (T : Nat → Lexeme) (i : Nat) : Expr → Prop where
  | literal {kind : LiteralKind} (h : LiteralKind.ofLexeme? (T i) = some kind) :
      AtomAt T i (.literal ⟨kind, (T i).value, .single i⟩)
  | ident {x : Ident} (h : NameAt T i x) : AtomAt T i (.ident x)

/-- An operand of one token. -/
def SingleAt (T : Nat → Lexeme) (i j : Nat) (u : Expr) : Prop :=
  AtomAt T i u ∧ j = i + 1

/-- An operand of one token that the next token does not extend. -/
def LoneAt (T : Nat → Lexeme) (i j : Nat) (u : Expr) : Prop :=
  SingleAt T i j u ∧ (T j).kind ≠ .openParen ∧ (T j).kind ≠ .doubleColon

theorem kind_of_binary? {lexeme : Lexeme} {operation : Operation}
    (h : Operation.binary? lexeme = some operation) :
    lexeme.kind ≠ .openParen ∧ lexeme.kind ≠ .doubleColon := by
  refine ⟨?_, ?_⟩
  · intro hk
    simp [Operation.binary?, hk] at h
  · intro hk
    simp [Operation.binary?, hk] at h

/-- Between operators, and before a token that extends no operand, every operand stands alone. -/
theorem ChainAt.lone {T : Nat → Lexeme} {i j : Nat} {links : Links}
    (hparen : (T j).kind ≠ .openParen) (hcolon : (T j).kind ≠ .doubleColon)
    (h : ChainAt SingleAt T i j links) :
    ChainAt LoneAt T i j links ∧ (T i).kind ≠ .openParen ∧ (T i).kind ≠ .doubleColon := by
  induction h with
  | nil => exact ⟨.nil, hparen, hcolon⟩
  | cons hop hu _ ih =>
    obtain ⟨hlinks, hnext⟩ := ih hparen hcolon
    exact ⟨.cons hop ⟨hu, hnext⟩ hlinks, kind_of_binary? hop⟩

namespace AtomAt

variable {T : Nat → Lexeme} {i : Nat} {u : Expr}

theorem kind_ne_endMark (h : AtomAt T i u) : (T i).kind ≠ .endMark := by
  cases h with
  | literal h =>
    intro hk
    simp [LiteralKind.ofLexeme?, hk] at h
  | ident h => exact h.kind_ne_endMark

theorem unary?_eq_none (h : AtomAt T i u) : Operation.unary? (T i) = none := by
  cases h with
  | literal h =>
    unfold LiteralKind.ofLexeme? at h
    unfold Operation.unary?
    split at h <;> simp_all
  | ident h => simp [Operation.unary?, h.1]

end AtomAt

namespace Level

variable {g : Level} {s : State} {j : Nat} {u : Expr}

theorem run_primary_lone (hs : s.Valid) (h : LoneAt s.lexeme s.pos j u) :
    g.primary s = .ok (some u) s.next := by
  obtain ⟨⟨hatom, rfl⟩, hparen, hcolon⟩ := h
  have hend : s.current.kind ≠ .endMark := hatom.kind_ne_endMark
  unfold primary
  rw [run_bind run_current]
  cases hatom with
  | @literal kind hliteral =>
    have hliteral' : LiteralKind.ofLexeme? s.current.toLexeme = some kind := hliteral
    simp only [hliteral']
    rw [run_bind (run_advance hend), hs.index_current]
    rfl
  | @ident x hx =>
    have hparen' : s.next.current.kind ≠ .openParen := hparen
    have hcolon' : s.next.current.kind ≠ .doubleColon := hcolon
    have hword : s.current.kind = .word := hx.1
    have hkey : s.current.keyword? = none := hx.2.1
    have hliteral : LiteralKind.ofLexeme? s.current.toLexeme = none := by
      simp [LiteralKind.ofLexeme?, hword]
    have hident : Ident.ofToken s.current = x := by
      rw [hx.2.2]
      simp only [Ident.ofToken, hkey, hs.index_current]
      rfl
    simp only [hliteral, hword, hkey]
    refine run_map ?_
    unfold named
    rw [run_bind (run_advance hend), run_bind (run_accept_none hcolon'), hident]
    show (isAt .openParen >>= _) s.next = _
    rw [run_bind (run_isAt_false hparen')]
    rfl

/-- An operand of one token asks for nothing from the levels below. -/
theorem run_operand_lone (hs : s.Valid) (h : LoneAt s.lexeme s.pos j u) :
    g.operand s = .ok (some u) s.next := by
  have hunary : Operation.unary? s.current.toLexeme = none := h.1.1.unary?_eq_none
  have hparen : s.next.current.kind ≠ .openParen := by
    obtain ⟨⟨-, rfl⟩, hparen, -⟩ := h
    exact hparen
  have hround : g.callRound u s.next = .ok (.done u) s.next := by
    unfold callRound
    rw [run_bind (run_isAt_false hparen)]
    rfl
  unfold operand
  rw [run_bind run_current]
  simp only [hunary]
  unfold called
  rw [run_bind (run_primary_lone hs h)]
  exact run_map (run_loopFor_done hround)

end Level

/-- How many levels of the table bind at least as tight as `least`. -/
def levelsFrom (least : Nat) : Nat :=
  [2, 5, 6, 7, 8, 9, 10, 11, 12, 13, 14].countP fun level => decide (least ≤ level)

/-- Reading goes one level up in the table from the operator that was passed. -/
theorem levelsFrom_succ_lt {operation : Operation} {least : Nat} (h : operation.isUnary = false)
    (hle : least ≤ operation.level) :
    levelsFrom (operation.level + 1) + 1 ≤ levelsFrom least := by
  have hmono : levelsFrom operation.level ≤ levelsFrom least := by
    refine List.countP_mono_left ?_
    intro level _ hlevel
    simp only [decide_eq_true_eq] at hlevel ⊢
    omega
  have hstep : levelsFrom (operation.level + 1) + 1 = levelsFrom operation.level := by
    cases operation <;> first | rfl | cases h
  omega

theorem two_le_levelsFrom {least : Nat} (h : least ≤ 13) : 2 ≤ levelsFrom least := by
  have hmono : levelsFrom 13 ≤ levelsFrom least := by
    refine List.countP_mono_left ?_
    intro level _ hlevel
    simp only [decide_eq_true_eq] at hlevel ⊢
    omega
  exact hmono

/-- Enough levels are left for a chain of operands of one token: one for each level of the table,
one for each further cast of a run of casts, and one for an operand. -/
def Fits (room least : Nat) (links : Links) : Prop :=
  (∀ l ∈ links, l.1.operation.isUnary = false) ∧
    (∀ run, run <:+: links → (∀ l ∈ run, l.1.operation = .cast) → run.length ≤ 50) ∧
    ((least ≤ 13 ∧ levelsFrom least + 50 ≤ room) ∨ (least = 14 ∧ links.length + 1 ≤ room))

theorem Fits.pos {room least : Nat} {l : Operator × Expr} {links : Links}
    (h : Fits (room + 1) least (l :: links)) : 0 < room := by
  obtain ⟨-, -, ⟨hle, hroom⟩ | ⟨-, hroom⟩⟩ := h
  · have := two_le_levelsFrom hle
    omega
  · simp only [List.length_cons] at hroom
    omega

theorem budget_fits (room : Nat) : Budget (Fits (room + 1)) (Fits room) where
  tighter := by
    rintro least op u more rest ⟨hbetween, hruns, hroom⟩ hle hne hall
    have hmore : more <:+: (op, u) :: (more ++ rest) := ⟨[(op, u)], rest, by simp⟩
    refine ⟨fun l hl => hbetween l (hmore.subset hl),
      fun run hrun => hruns run (hrun.trans hmore), ?_⟩
    -- something binds tighter than the operator, so that is no cast
    obtain ⟨l, hl⟩ := List.exists_mem_of_ne_nil more hne
    have htop : l.1.level ≤ 14 := l.1.operation.level_le
    have hlt : op.level < l.1.level := hall l hl
    rcases hroom with ⟨hleast, hroom⟩ | ⟨rfl, -⟩
    · have hstep : levelsFrom (op.level + 1) + 1 ≤ levelsFrom least :=
        levelsFrom_succ_lt (hbetween (op, u) List.mem_cons_self) hle
      by_cases hcast : op.level + 1 ≤ 13
      · exact .inl ⟨hcast, by omega⟩
      · refine .inr ⟨by omega, ?_⟩
        have hlength := hruns more hmore fun l hl =>
          Operation.eq_cast_of_level (by have := hall l hl; show 14 ≤ l.1.level; omega)
        have := two_le_levelsFrom hleast
        omega
    · omega
  same := by
    rintro least op u more rest ⟨hbetween, hruns, hroom⟩ hle hne hall
    have hmore : more <:+: (op, u) :: (more ++ rest) := ⟨[(op, u)], rest, by simp⟩
    refine ⟨fun l hl => hbetween l (hmore.subset hl),
      fun run hrun => hruns run (hrun.trans hmore), ?_⟩
    obtain ⟨l, hl⟩ := List.exists_mem_of_ne_nil more hne
    obtain ⟨heq, hr⟩ := hall l hl
    have htop : Operation.cast.level ≤ l.1.level := Operation.level_le_of_right _ hr
    have hcast : Operation.cast.level = 14 := rfl
    have hop : op.level ≤ 14 := op.operation.level_le
    refine .inr ⟨by omega, ?_⟩
    -- the operator and these links are one run of casts
    have hrun : (op, u) :: more <:+: (op, u) :: (more ++ rest) := ⟨[], rest, by simp⟩
    have hlength := hruns _ hrun (by
      intro l' hl'
      refine Operation.eq_cast_of_level ?_
      show 14 ≤ l'.1.level
      rcases List.mem_cons.mp hl' with rfl | hl'
      · show 14 ≤ op.level
        omega
      · have := (hall l' hl').1
        omega)
    simp only [List.length_cons] at hlength
    rcases hroom with ⟨hleast, hroom⟩ | ⟨-, hroom⟩
    · have := two_le_levelsFrom hleast
      omega
    · simp only [List.length_cons, List.length_append] at hroom
      omega
  rest := by
    rintro least op u more rest ⟨hbetween, hruns, hroom⟩ _ _ _
    have hrest : rest <:+: (op, u) :: (more ++ rest) := ⟨(op, u) :: more, [], by simp⟩
    refine ⟨fun l hl => hbetween l (hrest.subset hl),
      fun run hrun => hruns run (hrun.trans hrest), ?_⟩
    rcases hroom with hroom | ⟨hleast, hroom⟩
    · exact .inl hroom
    · simp only [List.length_cons, List.length_append] at hroom
      exact .inr ⟨hleast, by omega⟩

/-- A chain of operands of one token is read at every depth that leaves enough levels. -/
theorem achieves_binary_lone (room : Nat) :
    ∀ {s : State} {least : Nat} {left e : Expr} {links : Links} {k : Nat},
      s.Valid → s.depth + room = maxDepth → ChainAt LoneAt s.lexeme s.pos k links →
      Grouped left links e → (∀ l ∈ links, least ≤ l.1.level) → Stops (s.moveTo k) least →
      Fits room least links →
      Achieves (fun _ => False) ((Level.withRoom room).binary left least) s e (s.moveTo k) := by
  induction room with
  | zero =>
    rintro s least left e links k _ _ _ _ _ _ ⟨-, -, ⟨-, hroom⟩ | ⟨-, hroom⟩⟩
    · omega
    · omega
  | succ room ih =>
    intro s least left e links k hs hd hlinks hgroup hleast hstop hfits
    have hchains : (Level.withRoom room).ReadsChains (fun _ => False) LoneAt (Fits (room + 1))
        (Fits room) (s.depth + 1) := by
      refine ⟨budget_fits room, ?_, ?_, fun ht hdt => ih ht (by omega)⟩
      · rintro T i j u ⟨⟨-, rfl⟩, -⟩
        omega
      · intro t least op u links k hfits _ ht hdt hu
        obtain ⟨room, rfl⟩ : ∃ n, room = n + 1 := ⟨room - 1, by have := hfits.pos; omega⟩
        refine Achieves.nested (fun hdepth => by omega) fun _ => ?_
        obtain ⟨⟨hatom, rfl⟩, hnext⟩ := hu
        exact .inl ⟨Level.run_operand_lone ht ⟨⟨hatom, rfl⟩, hnext⟩,
          State.Valid.next ht hatom.kind_ne_endMark⟩
    refine Achieves.nested (fun hdepth => by omega) fun hdepth => ?_
    exact hchains.binaryChain (s := s.withDepth (s.depth + 1)) hs rfl hlinks hgroup hleast hstop
      hfits

/-- A flat expression is read from a fresh state, whatever its length. -/
theorem run_expression_flat {s : State} (hs : s.Valid) (hd : s.depth = 0) {u : Expr}
    {links : Links} {j : Nat} (hu : AtomAt s.lexeme s.pos u)
    (hlinks : ChainAt SingleAt s.lexeme (s.pos + 1) j links)
    (hop : Operation.binary? (s.lexeme j) = none) (hparen : (s.lexeme j).kind ≠ .openParen)
    (hcolon : (s.lexeme j).kind ≠ .doubleColon)
    (hruns : ∀ run, run <:+: links → (∀ l ∈ run, l.1.operation = .cast) → run.length ≤ 50) :
    ∃ e, expression s = .ok (some e) (s.moveTo j) ∧ Grouped u links e := by
  obtain ⟨hlone, hfirst⟩ := hlinks.lone hparen hcolon
  obtain ⟨e, hgroup⟩ := Grouped.exists_tree links.length u (Nat.le_refl _) hlone.isUnary
  have hnext : s.next.Valid := hs.next hu.kind_ne_endMark
  have hunary : (Level.withRoom 64).unary s = .ok (some u) s.next := by
    have hrun := run_nested (s := s) (p := (Level.withRoom 63).operand) (by rw [hd]; decide)
      (Level.run_operand_lone (s := s.withDepth (s.depth + 1)) hs ⟨⟨hu, rfl⟩, hfirst⟩)
    exact hrun
  have hstop : Stops (s.next.moveTo j) 0 := by
    intro level associativity hpower
    obtain ⟨operation, hop', -⟩ := Lexeme.bindingPower?_eq_some hpower
    rw [show (s.next.moveTo j).lexeme (s.next.moveTo j).pos = s.lexeme j from rfl, hop] at hop'
    cases hop'
  have hfits : Fits 64 0 links :=
    ⟨hlone.isUnary, hruns, .inl ⟨by decide, by decide⟩⟩
  obtain ⟨hbinary, -⟩ := (achieves_binary_lone 64 hnext (by rw [s.next_depth, hd]; rfl) hlone
    hgroup (fun _ _ => Nat.zero_le _) hstop hfits).run_eq
  refine ⟨e, ?_, hgroup⟩
  have hroom : maxDepth - s.depth = 64 := by
    rw [hd]
    rfl
  show (Level.withRoom (maxDepth - s.depth)).expression s = _
  rw [hroom]
  unfold Level.expression
  rw [run_bind hunary]
  exact run_map hbinary

/-- Expressions are grouped by the table of precedences. An expression that is read from any state
consists of operands, each read by the rule for operands at its place, and of the operators that
stand between them; it is their one tree, and what follows is no operator between operands. A
sequence of single literals and names with operators between them, without more than 50 casts in
a row and not followed by what would extend it, is always read to its end. -/
theorem expression_eq_tree :
    (∀ s t e, State.Valid s → expression s = .ok (some e) t →
      ∃ u s₁ links, UnaryRun s u s₁ ∧ LinksBy UnaryRun s₁ links t ∧ Grouped u links e ∧
        (∀ e', Grouped u links e' → e' = e) ∧ (t.lexeme t.pos).bindingPower? = none) ∧
    (∀ tokens u links j, AtomAt (State.ofTokens tokens).lexeme 0 u →
      ChainAt SingleAt (State.ofTokens tokens).lexeme 1 j links →
      Operation.binary? ((State.ofTokens tokens).lexeme j) = none →
      ((State.ofTokens tokens).lexeme j).kind ≠ .openParen →
      ((State.ofTokens tokens).lexeme j).kind ≠ .doubleColon →
      (∀ run, run <:+: links → (∀ l ∈ run, l.1.operation = .cast) → run.length ≤ 50) →
      ∃ e, expression (.ofTokens tokens) = .ok (some e) ((State.ofTokens tokens).moveTo j) ∧
        Grouped u links e) := by
  refine ⟨?_, ?_⟩
  · intro s t e hs hrun
    obtain ⟨u, s₁, links, hu, hlinks, hgroup, hstop⟩ := run_expression_climbed hs hrun
    exact ⟨u, s₁, links, hu, hlinks, hgroup, fun _ h => h.unique hgroup, hstop⟩
  · intro tokens u links j hu hlinks hop hparen hcolon hruns
    exact run_expression_flat (s := .ofTokens tokens) (Nat.zero_le _) rfl hu hlinks hop hparen
      hcolon hruns

/-- The tokens of `a - b - x as t as u;`. -/
def differenceTokens : List Token :=
  [⟨.word "a", ⟨0, 1⟩, 0⟩, ⟨.fixed .dash, ⟨2, 3⟩, 1⟩, ⟨.word "b", ⟨4, 5⟩, 2⟩,
    ⟨.fixed .dash, ⟨6, 7⟩, 3⟩, ⟨.word "x", ⟨8, 9⟩, 4⟩, ⟨.word "as", ⟨10, 12⟩, 5⟩,
    ⟨.word "t", ⟨13, 14⟩, 6⟩, ⟨.word "as", ⟨15, 17⟩, 7⟩, ⟨.word "u", ⟨18, 19⟩, 8⟩,
    ⟨.fixed .semicolon, ⟨19, 20⟩, 9⟩]

/-- Differences group to the left, and casts, which bind tighter, to the right. -/
theorem expression_eq_tree_difference :
    State.Valid (.ofTokens differenceTokens) ∧
    ∃ e u s₁ links t, expression (.ofTokens differenceTokens) = .ok (some e) t ∧ t.pos = 9 ∧
      Outline.expr e = "(Subtract (Subtract a b) (Cast x (Cast t u)))" ∧
      UnaryRun (.ofTokens differenceTokens) u s₁ ∧ LinksBy UnaryRun s₁ links t ∧
        Grouped u links e := by
  have hname : ∀ i ∈ [0, 2, 4, 6, 8], AtomAt (State.ofTokens differenceTokens).lexeme i
      (.ident ⟨((State.ofTokens differenceTokens).lexeme i).value, none, .single i⟩) := by
    intro i hi
    refine .ident ⟨?_, ?_, rfl⟩
    · revert i
      decide
    · revert i
      decide
  have hdash : ∀ i ∈ [1, 3], Operation.binary? ((State.ofTokens differenceTokens).lexeme i) =
      some .subtract := by
    decide
  have has : ∀ i ∈ [5, 7], Operation.binary? ((State.ofTokens differenceTokens).lexeme i) =
      some .cast := by
    decide
  have hlinks : ChainAt SingleAt (State.ofTokens differenceTokens).lexeme 1 9 _ :=
    .cons (hdash 1 (by decide)) ⟨hname 2 (by decide), rfl⟩ <|
      .cons (hdash 3 (by decide)) ⟨hname 4 (by decide), rfl⟩ <|
        .cons (has 5 (by decide)) ⟨hname 6 (by decide), rfl⟩ <|
          .cons (has 7 (by decide)) ⟨hname 8 (by decide), rfl⟩ .nil
  have houtline : (match expression (.ofTokens differenceTokens) with
      | .ok e? _ => e?.map Outline.expr
      | .error _ _ => none
      | .fault _ _ => none) = some "(Subtract (Subtract a b) (Cast x (Cast t u)))" := by
    decide +kernel
  have hvalid : State.Valid (.ofTokens differenceTokens) := Nat.zero_le _
  -- four operators, so no more than 50 casts in a row
  obtain ⟨e, hrun, -⟩ := expression_eq_tree.2 differenceTokens _ _ 9 (hname 0 (by decide)) hlinks
    (by decide) (by decide) (by decide) fun run hrun _ => Nat.le_trans hrun.length_le (by decide)
  rw [hrun] at houtline
  obtain ⟨u, s₁, links, hu, hlinksBy, hgroup, -⟩ := expression_eq_tree.1 _ _ _ hvalid hrun
  exact ⟨hvalid, e, u, s₁, links, _, hrun, rfl, Option.some.inj houtline, hu, hlinksBy, hgroup⟩

end FrontEnd.Grammar
