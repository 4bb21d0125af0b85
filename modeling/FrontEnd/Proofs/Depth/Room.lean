import FrontEnd.Proofs.Acceptance.Program
import FrontEnd.Proofs.Parallel.Program

/-! How much the number of open levels matters. A rule that was refused no level does not depend on
how many were open before: with fewer of them open it ends in the same way, at the same place and
with the same diagnostics. -/
namespace FrontEnd

/-- The diagnostic says that no further level may be opened. -/
def Diagnostic.lacksLevel (d : Diagnostic) : Bool :=
  match d.cause with
  | .nestingTooDeep _ => true
  | _ => false

namespace Grammar

open Parse

variable {α : Type} {s : State} {p : Parse α}

namespace Outcome

/-- The diagnostic that the rule stopped with. -/
def diagnostic? : Outcome α → Option Diagnostic
  | .ok .. => none
  | .error d _ => some d
  | .fault .. => none

/-- A level was refused in a run from `s`: the rule stopped for that reason, or recorded it. -/
def lacksLevel (s : State) (o : Outcome α) : Bool :=
  o.diagnostic?.any Diagnostic.lacksLevel ||
    (o.state.errors.drop s.errors.length).any Diagnostic.lacksLevel

/-- What was read, if anything was, and the state behind it. -/
def read? : Outcome (Option α) → Option (α × State)
  | .ok a? t => a?.map (·, t)
  | .error .. => none
  | .fault .. => none

theorem eq_of_read? {o : Outcome (Option α)} {r : α × State} (h : o.read? = some r) :
    o = .ok (some r.1) r.2 := by
  cases o with
  | ok a? t =>
    cases a? with
    | none => cases h
    | some a =>
      obtain rfl : (a, t) = r := Option.some.inj h
      rfl
  | _ => cases h

/-- The same outcome in another state. -/
def mapState (f : State → State) : Outcome α → Outcome α
  | .ok a s => .ok a (f s)
  | .error d s => .error d (f s)
  | .fault e s => .fault e (f s)

/-- The same outcome with another number of open levels. -/
def withDepth (o : Outcome α) (depth : Nat) : Outcome α :=
  o.mapState (·.withDepth depth)

end Outcome

/-- The state behind further diagnostics, with another number of open levels. -/
def State.behind (s : State) (earlier : List Diagnostic) (depth : Nat) : State :=
  { s with errors := earlier ++ s.errors, depth := depth }

/-- What a run adds to the diagnostics from before it. -/
theorem Outcome.lacksLevel_mapState_behind {o : Outcome α} {earlier : List Diagnostic}
    {depth : Nat} (hs : s.errors = earlier) :
    (o.mapState (·.behind earlier depth)).lacksLevel s =
      (o.diagnostic?.any Diagnostic.lacksLevel || o.state.errors.any Diagnostic.lacksLevel) := by
  cases o <;> simp [lacksLevel, mapState, diagnostic?, state, State.behind, hs]

/-! ## Two runs on one stream -/

namespace Link

/-- The second run is at the same place, with fewer levels open. A want of levels need not come to
both. -/
def shallower (deeper : Nat) (earlier : List Diagnostic) : Link where
  offset := 0
  deeper := deeper
  earlier := earlier
  bad d := d.lacksLevel = true
  shown _ := True
  shown_of_le _ h := h

theorem deep_shallower (deeper : Nat) (earlier : List Diagnostic) :
    (shallower deeper earlier).Deep :=
  .inr fun _ => rfl

/-- Where two runs are shown the same, only a diagnostic or a fault excuses the first one. -/
theorem Excused.of_shown {K : Link} {o : Outcome α} (hshown : ∀ i, K.shown i)
    (h : K.Excused (fun _ _ => False) o) :
    (∃ d, (o.diagnostic? = some d ∨ d ∈ o.state.errors) ∧ K.bad d) ∨ ∃ f t, o = .fault f t := by
  cases o with
  | ok a t =>
    obtain ⟨d, hd, hbad⟩ := h.resolve_left id
    exact .inl ⟨d, .inr hd, hbad⟩
  | error d t =>
    rcases h with hbad | hhidden | ⟨d', hd', hbad⟩
    · exact .inl ⟨d, .inl rfl, hbad⟩
    · exact absurd (hshown t.pos) hhidden
    · exact .inl ⟨d', .inr hd', hbad⟩
  | fault f t => exact .inr ⟨f, t, rfl⟩

end Link

theorem Linked.behind {K : Link} (hs : s.Valid) (hoffset : K.offset = 0) {depth : Nat}
    (hdepth : s.depth = depth + K.deeper) : Linked K s (s.behind K.earlier depth) where
  lexeme i _ := by
    rw [hoffset]
    rfl
  size := by
    rw [hoffset]
    exact Nat.le_refl _
  pos := by
    rw [hoffset]
    rfl
  errors := by
    rw [hoffset]
    exact congrArg _ (List.map_id' _).symm
  depth := hdepth
  valid := hs
  valid' := hs

/-- Two runs of the rule at one place that are shown the same do the same, and without a fault. -/
structure Repeats [Shift α] (p : Parse α) : Prop where
  follows : ∀ K : Link, K.offset = 0 → (∀ i, K.shown i) → K.Deep →
    Follows K (fun _ _ => False) p p
  shift_zero : ∀ a : α, Shift.shift 0 a = a
  no_fault : ∀ s, State.Valid s → ∀ f t, p s ≠ .fault f t

namespace Repeats

variable [Shift α]

/-- Where nothing excuses the first run, the second one ends as it does, behind its own diagnostics
and at its own depth. -/
theorem run_behind (h : Repeats p) {K : Link} (hoffset : K.offset = 0)
    (hshown : ∀ i, K.shown i) (hdeep : K.Deep) (hs : s.Valid) {depth : Nat}
    (hdepth : s.depth = depth + K.deeper)
    (hgood : ∀ d, (p s).diagnostic? = some d ∨ d ∈ (p s).state.errors → ¬ K.bad d) :
    p (s.behind K.earlier depth) = (p s).mapState (·.behind K.earlier depth) := by
  have hp := h.follows K hoffset hshown hdeep
  have hgrows := hp.grows s
  have hgrows' := hp.grows (s.behind K.earlier depth)
  -- two states on one stream that correspond differ in what lies behind them and in their depth
  have hstate : ∀ {u v : State}, Grows s u → Grows (s.behind K.earlier depth) v → Linked K u v →
      v = u.behind K.earlier depth := by
    intro u v hu hv huv
    obtain ⟨stream, pos, errors, d⟩ := v
    obtain rfl : stream = u.stream := hv.stream.trans hu.stream.symm
    obtain rfl : pos = u.pos := by simpa [hoffset] using huv.pos
    obtain rfl : d = depth := hv.depth
    obtain rfl : errors = K.earlier ++ u.errors := by
      have hmap : u.errors.map (Diagnostic.shift 0) = u.errors := List.map_id' _
      simpa [hoffset, hmap] using huv.errors
    rfl
  rcases (hp.run (Linked.behind hs hoffset hdepth)).cases with
    ⟨a, b, u, v, hrun, hrun', hab, huv⟩ | ⟨d, u, v, hrun, hrun', huv⟩ | hex
  · rw [hrun] at hgrows
    rw [hrun'] at hgrows'
    have hb : b = a := by
      rw [show b = Shift.shift K.offset a from hab, hoffset, h.shift_zero]
    have hv : v = u.behind K.earlier depth := hstate hgrows hgrows' huv
    rw [hrun, hrun', hb, hv]
    rfl
  · rw [hrun] at hgrows
    rw [hrun'] at hgrows'
    have hd : d.shift K.offset = d := by
      rw [hoffset]
      rfl
    have hv : v = u.behind K.earlier depth := hstate hgrows hgrows' huv
    rw [hrun, hrun', hd, hv]
    rfl
  · rcases hex.of_shown hshown with ⟨d, hd, hbad⟩ | ⟨f, t, hrun⟩
    · exact absurd hbad (hgood d hd)
    · exact absurd hrun (h.no_fault s hs f t)

/-- The diagnostics from before a run may be set aside. -/
theorem run_behind_errors (h : Repeats p) (hs : s.Valid) :
    p s = (p { s with errors := [] }).mapState (·.behind s.errors s.depth) := by
  have hbehind : State.behind { s with errors := [] } s.errors s.depth = s := by
    unfold State.behind
    rw [List.append_nil]
  have hrun := h.run_behind (s := { s with errors := [] }) (K := .total 0 s.errors) rfl
    (fun _ => trivial) (Link.deep_total 0 s.errors) hs (show s.depth = s.depth + 0 from rfl)
    (fun _ _ hno => hno)
  have hearlier : (Link.total 0 s.errors).earlier = s.errors := rfl
  rwa [hearlier, hbehind] at hrun

/-- A rule that was refused no level does the same with fewer levels open. -/
theorem run_withDepth (h : Repeats p) (hs : s.Valid) {depth : Nat} (hle : depth ≤ s.depth)
    (hlevels : (p s).lacksLevel s = false) :
    p (s.withDepth depth) = (p s).withDepth depth := by
  have hsame := h.run_behind_errors hs
  -- a want of levels from before says nothing about this run
  rw [hsame, Outcome.lacksLevel_mapState_behind rfl, Bool.or_eq_false_iff] at hlevels
  have hbehind : State.behind { s with errors := [] } s.errors depth = s.withDepth depth := by
    unfold State.behind State.withDepth
    rw [List.append_nil]
  have hdepth : s.depth = depth + (s.depth - depth) := by omega
  have hrun := h.run_behind (s := { s with errors := [] })
    (K := .shallower (s.depth - depth) s.errors) rfl (fun _ => trivial)
    (Link.deep_shallower _ _) hs hdepth ?_
  · have hearlier : (Link.shallower (s.depth - depth) s.errors).earlier = s.errors := rfl
    rw [hearlier, hbehind] at hrun
    rw [hrun, hsame]
    cases p { s with errors := [] } <;> rfl
  · intro d hd hbad
    have hno : d.lacksLevel = false := by
      rcases hd with hd | hd
      · simpa [hd] using hlevels.1
      · simpa using List.any_eq_false.mp hlevels.2 d hd
    exact Bool.eq_false_iff.mp hno hbad

/-- What the rule achieves behind no diagnostics it achieves behind any, or a level is refused. -/
theorem lacksLevel_or_eq (h : Repeats p) (hs : s.Valid) {a : α} {j : Nat}
    (hp : Achieves (·.lacksLevel = true) p { s with errors := [] } a
      (State.moveTo { s with errors := [] } j)) :
    (p s).lacksLevel s = true ∨ p s = .ok a (s.moveTo j) := by
  have hsame := h.run_behind_errors hs
  rcases hp with ⟨hrun, -⟩ | ⟨d, t, hrun, hlacks⟩ | ⟨d, hd, hlacks⟩
  · right
    rw [hsame, hrun]
    show Outcome.ok a (State.mk s.stream j (s.errors ++ []) s.depth) = .ok a (s.moveTo j)
    rw [List.append_nil]
    rfl
  · left
    rw [hsame, Outcome.lacksLevel_mapState_behind rfl, hrun]
    simp [Outcome.diagnostic?, hlacks]
  · left
    rw [hsame, Outcome.lacksLevel_mapState_behind rfl, Bool.or_eq_true]
    exact .inr (List.any_eq_true.mpr ⟨d, hd, hlacks⟩)

end Repeats

/-! ## The rules -/

/-- A rule at the depth of the state, from the rule at every level. -/
theorem Repeats.atDepth [Shift α] {rule : Level → Parse α} {E : Link → α → State → Prop}
    (hfollows : ∀ K : Link, K.offset = 0 → ∀ g h : Level, g.Parallel K h → g.Sound →
      Follows K (E K) (rule g) (rule h))
    (hE : ∀ K : Link, (∀ i, K.shown i) → ∀ a s, ¬ E K a s)
    (hzero : ∀ a : α, Shift.shift 0 a = a)
    {post : State → α → State → Prop}
    (hsound : ∀ g : Level, g.Sound → ∀ s, State.Valid s → Ensures (rule g) s (post s)) :
    Repeats (Grammar.atDepth rule) where
  follows K hoffset hshown hdeep := by
    have hlimited : K.Limited := fun i _ hno => absurd (hshown i) hno
    apply Follows.atDepth
    intro room room' hle heq
    exact (hfollows K hoffset _ _ (.withRoom hlimited hdeep hle heq)
      (Level.withRoom_sound room)).mono fun a s h => hE K hshown a s h
  shift_zero := hzero
  no_fault s hs := (Ensures.atDepth fun room => hsound _ (Level.withRoom_sound room) s hs).no_fault

theorem Link.Beyond.not_of_shown {K : Link} {ahead : Bool} (hshown : ∀ i, K.shown i) (a : α)
    (s : State) : ¬ K.Beyond ahead a s :=
  fun h => h.not_shown (hshown s.pos)

theorem Link.Unsure.not_of_shown {K : Link} {inBlock : Bool} (hshown : ∀ i, K.shown i)
    (stmt? : Option Stmt) (s : State) : ¬ K.Unsure inBlock stmt? s := by
  intro h
  cases stmt? with
  | some stmt => exact Link.Beyond.not_of_shown hshown stmt s h
  | none =>
    rcases h with hbeyond | ⟨-, d, t, -, hhidden⟩
    · exact Link.Beyond.not_of_shown hshown () s hbeyond
    · exact hhidden (hshown t.pos)

theorem repeats_expression : Repeats expression :=
  .atDepth (E := fun K => K.Beyond true) (fun _ _ _ _ hg _ => Follows.expression hg)
    (fun _ hshown => Link.Beyond.not_of_shown hshown)
    (fun e? => (congrArg (Option.map · e?) (funext Expr.shift_zero)).trans Option.map_id')
    fun _ hg _ hs => hg.expression hs

/-- An expression that stands at the cursor is read, or a level is refused. -/
theorem lacksLevel_or_expression_eq (hs : s.Valid) {j : Nat} {e : Expr}
    (h : ExprAt s.lexeme s.pos j e) :
    (expression s).lacksLevel s = true ∨ expression s = .ok (some e) (s.moveTo j) := by
  apply repeats_expression.lacksLevel_or_eq hs
  exact (Level.complete_withRoom (fun _ => rfl) (maxDepth - s.depth)).expression
    (s := { s with errors := [] }) hs h

theorem repeats_statement (inBlock : Bool) : Repeats (statement inBlock) :=
  .atDepth (E := fun K => K.Unsure inBlock)
    (fun _ _ _ _ hg hsound => Follows.statement hg hsound inBlock)
    (fun _ hshown => Link.Unsure.not_of_shown hshown)
    (fun s? => (congrArg (Option.map · s?) (funext Stmt.shift_zero)).trans Option.map_id')
    fun _ hg _ hs => hg.statement hs inBlock

theorem repeats_block : Repeats block :=
  .atDepth (E := fun K => K.Beyond false) (fun _ _ _ _ hg _ => hg.block.follows)
    (fun _ hshown => Link.Beyond.not_of_shown hshown) Block.shift_zero
    fun _ hg s hs => hg.block s hs

theorem repeats_path (segment : Ident) (place : PathPlace) : Repeats (path segment place) :=
  .atDepth (E := fun K => K.Beyond true)
    (fun K hoffset _ _ hg _ => by
      have hpath := hg.path segment place
      rwa [hoffset, Ident.shift_zero] at hpath)
    (fun _ hshown => Link.Beyond.not_of_shown hshown) Path.shift_zero
    fun _ hg s hs => hg.path s segment place hs

/-- The limit of levels only ever refuses. Where an expression, a statement, a block or a path was
read, or an error was found, without a level being refused, the same comes of it with fewer levels
open: the same value or the same diagnostic, the same cursor, and the same diagnostics recorded. -/
theorem run_eq_of_fewer_levels {depth : Nat} (hs : s.Valid) (hle : depth ≤ s.depth) :
    ((expression s).lacksLevel s = false →
        expression (s.withDepth depth) = (expression s).withDepth depth) ∧
      (∀ inBlock, (statement inBlock s).lacksLevel s = false →
        statement inBlock (s.withDepth depth) = (statement inBlock s).withDepth depth) ∧
      ((block s).lacksLevel s = false →
        block (s.withDepth depth) = (block s).withDepth depth) ∧
      ∀ segment place, (path segment place s).lacksLevel s = false →
        path segment place (s.withDepth depth) = (path segment place s).withDepth depth :=
  ⟨repeats_expression.run_withDepth hs hle,
    fun inBlock => (repeats_statement inBlock).run_withDepth hs hle,
    repeats_block.run_withDepth hs hle,
    fun segment place => (repeats_path segment place).run_withDepth hs hle⟩

/-- The tokens of `{ let x; -f(1) }`. -/
def nestedTokens : List Token :=
  [⟨.fixed .openCurly, ⟨0, 1⟩, 0⟩, ⟨.word "let", ⟨2, 5⟩, 1⟩, ⟨.word "x", ⟨6, 7⟩, 2⟩,
    ⟨.fixed .semicolon, ⟨7, 8⟩, 3⟩, ⟨.fixed .dash, ⟨9, 10⟩, 4⟩, ⟨.word "f", ⟨10, 11⟩, 5⟩,
    ⟨.fixed .openParen, ⟨11, 12⟩, 6⟩, ⟨⟨.integer, "1", some .decimal⟩, ⟨12, 13⟩, 7⟩,
    ⟨.fixed .closeParen, ⟨13, 14⟩, 8⟩, ⟨.fixed .closeCurly, ⟨15, 16⟩, 9⟩]

/-- A state before these tokens, in which a level was refused before. -/
def nestedState : State :=
  ⟨.ofTokens nestedTokens, 0, [⟨.nestingTooDeep maxDepth, .zero⟩], 60⟩

/-- An error in a block is found alike with all levels left and with just enough of them; with one
fewer a level is refused. -/
theorem run_eq_of_fewer_levels_error :
    nestedState.Valid ∧ 0 ≤ nestedState.depth ∧
      (block nestedState).lacksLevel nestedState = false ∧
      (block nestedState).state.errors.map (·.cause.name) =
        ["NestingTooDeep", "UnexpectedToken"] ∧
      block (nestedState.withDepth 0) = (block nestedState).withDepth 0 ∧
      (block (nestedState.withDepth 61)).lacksLevel nestedState = true := by
  have hlevels : (block nestedState).lacksLevel nestedState = false := by
    decide +kernel
  have hs : nestedState.Valid := Nat.zero_le _
  exact ⟨hs, Nat.zero_le _, hlevels, by decide +kernel,
    (run_eq_of_fewer_levels hs (Nat.zero_le _)).2.2.1 hlevels, by decide +kernel⟩

end Grammar

end FrontEnd
