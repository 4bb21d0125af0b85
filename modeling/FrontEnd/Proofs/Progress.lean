import FrontEnd.Proofs.Session

/-! Progress. A rule for something that may be absent leaves the state as it was where it finds
nothing, and has passed a token where it finds something. Whichever way it ends, it has not moved
the cursor back and has forgotten no diagnostic. All of this holds in every state, also in one that
no run comes to. -/
namespace FrontEnd.Grammar

open Parse

variable {α β : Type} {s : State}

/-- The state that the rule leaves continues the one it started from. -/
def Growing (p : Parse α) : Prop :=
  ∀ s, Grows s (p s).state

/-- If the rule has a value, it has passed a token. -/
def Passes (p : Parse α) (s : State) : Prop :=
  ∀ a t, p s = .ok a t → s.pos < t.pos

/-- The rule finds something, unless it stops, and has passed a token then. -/
def Finds (p : Parse (Option α)) (s : State) : Prop :=
  ∀ a? t, p s = .ok a? t → a?.isSome ∧ s.pos < t.pos

/-- The state is as it was if the rule finds nothing, and the rule has passed a token if it finds
something. -/
structure Decides (p : Parse (Option α)) (s : State) : Prop where
  absent : ∀ t, p s = .ok none t → t = s
  present : ∀ a t, p s = .ok (some a) t → s.pos < t.pos

/-- All that callers rely on about a rule for something that may be absent. -/
structure Steady (p : Parse (Option α)) (s : State) : Prop extends Decides p s where
  stream : (p s).state.stream = s.stream
  depth : (p s).state.depth = s.depth
  pos : s.pos ≤ (p s).state.pos
  errors : s.errors <+: (p s).state.errors
  no_fault : s.Valid → ∀ f t, p s ≠ .fault f t

theorem Growing.bind {p : Parse α} {next : α → Parse β} (hp : Growing p)
    (hnext : ∀ a, Growing (next a)) : Growing (p >>= next) :=
  Relates.bind Grows.trans hp hnext

theorem Growing.pure (a : α) : Growing (pure a : Parse α) :=
  Grows.refl

theorem Growing.lift (r : Except Fault α) : Growing (lift r) := by
  cases r <;> exact Grows.refl

theorem Growing.map {f : α → β} {p : Parse α} (hp : Growing p) : Growing (f <$> p) :=
  Relates.map hp

theorem Follows.growing [Moves α] {E : α → State → Prop} {p q : Parse α}
    (h : Follows .same E p q) : Growing p :=
  h.grows

namespace Passes

theorem advance (h : s.current.kind ≠ .endMark) : Passes advance s := by
  intro token t hrun
  rw [run_advance h] at hrun
  cases hrun
  exact Nat.lt_succ_self _

/-- What follows a passed token does not move back. -/
theorem bind {p : Parse α} {next : α → Parse β} (h : Passes p s)
    (hnext : ∀ a, Growing (next a)) : Passes (p >>= next) s := by
  intro b u hrun
  obtain ⟨a, t, hp, hrest⟩ := exists_of_bind hrun
  have hgrows := hnext a t
  rw [hrest] at hgrows
  exact Nat.lt_of_lt_of_le (h a t hp) hgrows.pos

theorem toSome {p : Parse α} (h : Passes p s) : Finds (some <$> p) s := by
  intro a? t hrun
  rw [map_eq_pure_bind] at hrun
  obtain ⟨a, u, hp, hpure⟩ := exists_of_bind hrun
  cases hpure
  exact ⟨rfl, h a t hp⟩

end Passes

theorem Closes.pass [Moves α] {K : Link} {p q : Parse α} (h : Closes K p q) : Passes p s :=
  fun _ _ hrun => h.passes hrun

namespace Finds

/-- What the cursor shows decides how the rule goes on. -/
theorem look {next : Token → Parse (Option α)} (h : Finds (next s.current) s) :
    Finds (current >>= next) s :=
  h

/-- Behind a passed token there is always a value. -/
theorem bind {p : Parse α} {next : α → Parse (Option β)} (hp : Passes p s)
    (hgrows : ∀ a, Growing (next a)) (hsome : ∀ a t b? u, next a t = .ok b? u → b?.isSome) :
    Finds (p >>= next) s := by
  intro b? u hrun
  obtain ⟨a, t, -, hrest⟩ := exists_of_bind hrun
  exact ⟨hsome a t b? u hrest, hp.bind hgrows b? u hrun⟩

/-- The value is made of what was passed. -/
theorem bindPure {p : Parse α} {f : α → β} (h : Passes p s) :
    Finds (p >>= fun a => pure (some (f a))) s := by
  refine bind h (fun a => Growing.pure _) ?_
  intro a t b? u hrun
  cases hrun
  rfl

/-- A rule that finds something goes on with it. -/
theorem bindSome {p : Parse (Option α)} {next : Option α → Parse (Option β)}
    {rest : α → Parse β} (h : Finds p s) (hnext : ∀ a, next (some a) = some <$> rest a)
    (hrest : ∀ a, Growing (rest a)) : Finds (p >>= next) s := by
  intro b? u hrun
  obtain ⟨a?, t, hp, hrun'⟩ := exists_of_bind hrun
  obtain ⟨hsome, hlt⟩ := h a? t hp
  obtain ⟨a, rfl⟩ := Option.isSome_iff_exists.mp hsome
  rw [hnext, map_eq_pure_bind] at hrun'
  obtain ⟨b, v, hr, hpure⟩ := exists_of_bind hrun'
  cases hpure
  have hgrows := hrest a t
  rw [hr] at hgrows
  exact ⟨rfl, Nat.lt_of_lt_of_le hlt hgrows.pos⟩

theorem decides {p : Parse (Option α)} (h : Finds p s) : Decides p s where
  absent t hrun := absurd (h none t hrun).1 Bool.false_ne_true
  present a t hrun := (h (some a) t hrun).2

theorem nested {p : Parse (Option α)} (h : Finds p (s.withDepth (s.depth + 1))) :
    Finds (nested p) s := by
  intro a? t hrun
  unfold Grammar.nested at hrun
  split at hrun
  · cases hrun
  · split at hrun <;> cases hrun
    rename_i u hp
    exact h a? u hp

end Finds

namespace Decides

theorem of_error {p : Parse (Option α)} {d : Diagnostic} {t : State} (h : p s = .error d t) :
    Decides p s := by
  constructor <;> simp [h]

theorem of_none {p : Parse (Option α)} (h : p s = .ok none s) : Decides p s := by
  constructor <;> simp [h, eq_comm]

/-- Only the run from the state itself is of account. -/
theorem of_eq {p q : Parse (Option α)} (h : Decides q s) (heq : p s = q s) : Decides p s :=
  ⟨fun t hrun => h.absent t (heq ▸ hrun), fun a t hrun => h.present a t (heq ▸ hrun)⟩

theorem look {next : Token → Parse (Option α)} (h : Decides (next s.current) s) :
    Decides (current >>= next) s :=
  ⟨h.absent, h.present⟩

theorem located {next : Nat → Parse (Option α)} (h : Decides (next s.pos) s) :
    Decides (position >>= next) s :=
  ⟨h.absent, h.present⟩

/-- A rule that goes on only if it has found something. -/
theorem bindSome {p : Parse (Option α)} {next : Option α → Parse (Option β)}
    {rest : α → Parse β} (h : Decides p s) (hnone : next none = Pure.pure none)
    (hnext : ∀ a, next (some a) = some <$> rest a) (hrest : ∀ a, Growing (rest a)) :
    Decides (p >>= next) s := by
  constructor
  · intro t hrun
    obtain ⟨a?, u, hp, hrun'⟩ := exists_of_bind hrun
    cases a? with
    | none =>
      rw [hnone] at hrun'
      cases hrun'
      exact h.absent t hp
    | some a =>
      rw [hnext, map_eq_pure_bind] at hrun'
      obtain ⟨b, v, -, hpure⟩ := exists_of_bind hrun'
      cases hpure
  · intro b t hrun
    obtain ⟨a?, u, hp, hrun'⟩ := exists_of_bind hrun
    cases a? with
    | none =>
      rw [hnone] at hrun'
      cases hrun'
    | some a =>
      have hgrows := (hrest a).map (f := some) u
      rw [← hnext, hrun'] at hgrows
      exact Nat.lt_of_lt_of_le (h.present a u hp) hgrows.pos

end Decides

namespace Level

variable {g : Level} (hg : g.Parallel .same g)

include hg

theorem growing_expression : Growing g.expression :=
  (Follows.expression hg).growing

theorem passes_function (hkey : s.current.kind = .word) : Passes g.function s := by
  have hsignature : Passes signature s := by
    refine (Passes.advance (by rw [hkey]; decide)).bind fun token => ?_
    split
    · exact (Follows.signatureOf _ _).growing
    · exact Growing.lift (.error _)
  refine hsignature.bind fun header => ?_
  refine (Follows.functionBody hg header.kind).growing.bind fun body => ?_
  exact (Growing.lift _).bind fun span => Growing.pure _

theorem passes_keywordExpression (hkey : s.current.kind = .word) (keyword : Keyword) :
    Passes (g.keywordExpression keyword) s := by
  unfold Level.keywordExpression
  split
  · exact passes_function hg hkey
  · intro e t hrun
    cases hrun

theorem passes_named (hkey : s.current.kind = .word) : Passes (g.named s.current) s := by
  refine (Passes.advance (by rw [hkey]; decide)).bind fun _ => ?_
  refine (Follows.accept .doubleColon).growing.bind fun colon? => ?_
  cases colon? with
  | some colon => exact (hg.path _ .expression).growing.map
  | none =>
    refine (Follows.isAt .openParen).growing.bind fun here => ?_
    split
    · refine (Follows.arguments hg).growing.bind fun args => ?_
      exact (Follows.rangeFrom (E := fun _ _ => False) _).growing.bind fun span => Growing.pure _
    · exact Growing.pure _

theorem passes_parenthesized (hparen : s.current.kind = .openParen) :
    Passes g.parenthesized s := by
  refine (Passes.advance (by rw [hparen]; decide)).bind fun opening => ?_
  refine (growing_expression hg).bind fun first? => ?_
  cases first? with
  | some first => exact (Follows.parenthesizedFrom hg opening.index first).growing
  | none =>
    refine (Follows.accept .closeParen).growing.bind fun close? => ?_
    cases close? with
    | some close =>
      exact (Follows.rangeFrom (E := fun _ _ => False) _).growing.bind fun span => Growing.pure _
    | none => exact (Follows.missingExpression _).growing

theorem finds_primary (h : StartsExpr s.current.toLexeme)
    (hunary : Operation.unary? s.current.toLexeme = none) : Finds g.primary s := by
  have hend : s.current.kind ≠ .endMark := fun hend => not_startsExpr (.inr hend) h
  refine Finds.look ?_
  cases hliteral : LiteralKind.ofLexeme? s.current.toLexeme with
  | some kind => exact Finds.bindPure (Passes.advance hend)
  | none =>
    dsimp only
    split
    · rename_i hword
      cases s.current.keyword? with
      | some keyword => exact (passes_keywordExpression hg hword keyword).toSome
      | none => exact (passes_named hg hword).toSome
    · rename_i hparen
      exact (passes_parenthesized hg hparen).toSome
    · exact Finds.bindPure hg.block.pass
    · rename_i hword hparen hcurly
      rcases h with hsome | h | h | h | hsome
      · rw [hliteral] at hsome
        cases hsome
      · exact absurd h hword
      · exact absurd h hparen
      · exact absurd h hcurly
      · rw [hunary] at hsome
        cases hsome

theorem finds_operand (h : StartsExpr s.current.toLexeme) : Finds g.operand s := by
  have hend : s.current.kind ≠ .endMark := fun hend => not_startsExpr (.inr hend) h
  refine Finds.look ?_
  cases hunary : Operation.unary? s.current.toLexeme with
  | none =>
    exact (finds_primary hg h hunary).bindSome (fun _ => rfl) fun callee =>
      (Follows.loop (Follows.callRound hg) callee).growing
  | some operation =>
    refine Finds.bind ((Passes.advance hend).bind fun _ => Growing.lift _) ?_ ?_
    · refine fun op => hg.unary.growing.bind fun operand? => ?_
      cases operand? with
      | none => exact (Follows.missingExpression _).growing
      | some e => exact (Growing.lift _).bind fun span => Growing.pure _
    · intro op t u? v hrun
      obtain ⟨operand?, t', -, hrest⟩ := exists_of_bind hrun
      cases operand? with
      | none => cases hrest
      | some e =>
        obtain ⟨span, t'', -, hpure⟩ := exists_of_bind hrest
        cases hpure
        rfl

theorem finds_expression (h : Finds g.unary s) : Finds g.expression s :=
  h.bindSome (fun _ => rfl) fun left => (hg.binary left 0).growing

/-- A function declaration is found, unless the attempt at its header is undone. -/
theorem decides_functionStatement (inBlock : Bool) :
    Decides (g.functionStatement inBlock) s := by
  have hs := (Follows.declarationHeader (K := .same)).growing s
  cases hheader : declarationHeader s with
  | ok header u =>
    rw [hheader] at hs
    have hfinds : Finds (g.declared header.1 header.2) u := by
      refine Finds.bind hg.block.pass ?_ ?_
      · intro body
        split
        · exact Grows.refl
        · exact (Growing.lift _).bind fun span => Growing.pure _
      · intro body v stmt? w hrun
        split at hrun
        · cases hrun
        · obtain ⟨span, v', -, hpure⟩ := exists_of_bind hrun
          cases hpure
          rfl
    constructor
    · intro t hrun
      rw [run_functionStatement_ok hheader] at hrun
      exact absurd (hfinds none t hrun).1 Bool.false_ne_true
    · intro stmt t hrun
      rw [run_functionStatement_ok hheader] at hrun
      exact Nat.lt_of_le_of_lt hs.pos (hfinds (some stmt) t hrun).2
  | error d u =>
    rw [hheader] at hs
    cases inBlock with
    | false => exact .of_error (run_functionStatement_error hheader hs)
    | true => exact .of_none (run_functionStatement_error hheader hs)
  | fault f u =>
    constructor <;> simp [run_functionStatement_fault hheader]

theorem decides_statementOf (form : StatementForm) (inBlock : Bool) :
    Decides (g.statementOf form inBlock) s := by
  cases form with
  | binding => exact (Closes.bindingStatement hg).pass.toSome.decides
  | function => exact decides_functionStatement hg inBlock
  | returning => exact (Closes.returnStatement hg).pass.toSome.decides
  | importing => exact (Closes.importStatement hg).pass.toSome.decides

theorem decides_statement (hexpression : Decides g.expression s) (inBlock : Bool) :
    Decides (g.statement inBlock) s := by
  refine Decides.look ?_
  cases s.current.keyword? with
  | some keyword =>
    dsimp only
    cases keyword.statementForm? with
    | some form => exact decides_statementOf hg form inBlock
    | none => exact .of_error rfl
  | none =>
    exact Decides.located <| hexpression.bindSome rfl (fun _ => rfl) fun e =>
      (Closes.expressionStatement e s.pos).follows.growing

end Level

/-- Whatever levels are left, an expression is found where one can start. -/
theorem finds_unary_withRoom (h : StartsExpr s.current.toLexeme) (room : Nat) :
    Finds (Level.withRoom room).unary s := by
  cases room with
  | zero =>
    intro u? t hrun
    cases hrun
  | succ room =>
    exact Finds.nested (Level.finds_operand (s := s.withDepth (s.depth + 1)) (.same room) h)

theorem finds_expression (h : StartsExpr s.current.toLexeme) : Finds expression s :=
  Level.finds_expression (.same _) (finds_unary_withRoom h _)

/-- Where no level may be opened there is no value. -/
theorem run_expression_full (h : maxDepth ≤ s.depth) :
    expression s = .error ⟨.nestingTooDeep maxDepth, .single s.current.index⟩ s := by
  unfold expression atDepth
  rw [Nat.sub_eq_zero_of_le h]
  rfl

/-- There is no expression exactly where a level may be opened and none can start. -/
theorem run_expression_none_iff :
    (∃ t, expression s = .ok none t) ↔ s.depth < maxDepth ∧ ¬ StartsExpr s.current.toLexeme := by
  constructor
  · rintro ⟨t, hrun⟩
    constructor
    · by_contra hfull
      rw [run_expression_full (Nat.le_of_not_lt hfull)] at hrun
      cases hrun
    · intro hstart
      exact absurd (finds_expression hstart none t hrun).1 Bool.false_ne_true
  · rintro ⟨hd, hstart⟩
    exact ⟨s, run_expression_none hd hstart⟩

theorem decides_expression : Decides expression s := by
  by_cases hstart : StartsExpr s.current.toLexeme
  · exact (finds_expression hstart).decides
  · by_cases hd : s.depth < maxDepth
    · exact .of_none (run_expression_none hd hstart)
    · exact .of_error (run_expression_full (Nat.le_of_not_lt hd))

theorem decides_statement (inBlock : Bool) : Decides (statement inBlock) s := by
  have hexpression : Decides (Level.withRoom (maxDepth - s.depth)).expression s :=
    decides_expression.of_eq rfl
  exact (Level.decides_statement (.same _) hexpression inBlock).of_eq rfl

theorem Decides.steady {p : Parse (Option α)} (h : Decides p s) (hgrows : Growing p)
    (hfault : s.Valid → ∀ f t, p s ≠ .fault f t) : Steady p s where
  toDecides := h
  stream := (hgrows s).stream
  depth := (hgrows s).depth
  pos := (hgrows s).pos
  errors := (hgrows s).errors
  no_fault := hfault

theorem steady_expression : Steady expression s :=
  decides_expression.steady (fun s => (Follows.expression (.same _)).grows s) fun hs =>
    (Ensures.atDepth fun room => (Level.withRoom_sound room).expression hs).no_fault

theorem steady_statement (inBlock : Bool) : Steady (statement inBlock) s :=
  (decides_statement inBlock).steady
    (Follows.statementAt (Link.limited_total 0 []) (Link.deep_total 0 []) inBlock).growing
    fun hs => (ensures_statement hs inBlock).no_fault

/-- From every state the rules for expressions and for statements, in a block and outside, leave the
stream and the open levels as they were, do not move the cursor back and keep what was recorded.
Where they find nothing the whole state is as it was; where they find something a token was
passed. That there is no expression is said exactly where a level may be opened and the token at
the cursor is no literal, no word, no opening parenthesis or brace and no prefix operator. -/
theorem expression_statement_steady (s : State) :
    Steady expression s ∧ (∀ inBlock, Steady (statement inBlock) s) ∧
      ((∃ t, expression s = .ok none t) ↔
        s.depth < maxDepth ∧ LiteralKind.ofLexeme? s.current.toLexeme = none ∧
          s.current.kind ≠ .word ∧ s.current.kind ≠ .openParen ∧ s.current.kind ≠ .openCurly ∧
            Operation.unary? s.current.toLexeme = none) := by
  refine ⟨steady_expression, steady_statement, ?_⟩
  rw [run_expression_none_iff]
  simp [StartsExpr, State.current]

end FrontEnd.Grammar
