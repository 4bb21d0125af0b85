import FrontEnd.Grammar.Session
import FrontEnd.Proofs.Parallel.Program

/-! What every session keeps, whatever is called in whatever order: the stream stays as it was made,
the cursor does not pass the first end mark, and a level is open only where a call opened one. -/
namespace FrontEnd.Grammar

open Parse

variable {α β : Type} {s : State}

theorem Grows.map {f : α → β} {p : Parse α} (h : Grows s (p s).state) :
    Grows s ((f <$> p) s).state := by
  rwa [state_map]

/-- A rule in two runs from the same state, which share everything. -/
abbrev Link.same : Link :=
  .total 0 []

theorem Level.Parallel.same (room : Nat) :
    (Level.withRoom room).Parallel .same (Level.withRoom room) :=
  .withRoom (Link.limited_total 0 []) (Link.deep_total 0 []) (Nat.le_refl _) fun _ => rfl

theorem Grows.expect (kind : TokenKind) (expected : String) :
    Grows s (Grammar.expect kind expected s).state := by
  unfold Grammar.expect
  rw [run_bind run_current]
  split
  · exact (Follows.advance (K := .same)).grows s
  · exact Grows.refl s

/-- Whatever rule is run, the state it leaves continues the one it started from. -/
theorem Command.grows (command : Command) (s : State) : Grows s (command.rule s).state := by
  have hlevel : ∀ room, (Level.withRoom room).Parallel .same (Level.withRoom room) :=
    Level.Parallel.same
  cases command with
  | advance => exact ((Follows.advance (K := .same)).grows s).map
  | accept kind => exact ((Follows.accept (K := .same) kind).grows s).map
  | expect kind expected => exact (Grows.expect kind expected).map
  | expectSemicolon => exact ((Closes.expectSemicolon (K := .same)).follows.grows s).map
  | expectName context => exact ((Follows.expectName (K := .same) context).grows s).map
  | record d => exact Grows.record d
  | recover => exact (Follows.recover (K := .same)).grows s
  | statement inBlock =>
    exact ((Follows.statementAt (Link.limited_total 0 []) (Link.deep_total 0 []) inBlock).grows
      s).map
  | statementOf form inBlock => exact ((Follows.statementOf (hlevel _) form inBlock).grows s).map
  | expressionStatement e start =>
    exact ((Closes.expressionStatement (K := .same) e start).follows.grows s).map
  | expression => exact ((Follows.expression (hlevel _)).grows s).map
  | requiredExpression context =>
    exact ((Follows.requiredExpression (hlevel _) context).grows s).map
  | block => exact ((hlevel _).block.follows.grows s).map
  | signature => exact ((Follows.signature (K := .same)).grows s).map
  | path segment place => exact (((hlevel _).path segment place).grows s).map

theorem Outcome.state_of_left? {o : Outcome α} {t : State} (h : o.left? = some t) :
    o.state = t := by
  cases o with
  | ok a u => simpa [left?, state] using h
  | error d u => simpa [left?, state] using h
  | fault f u => simp [left?] at h

namespace Session

/-- What holds before the first call and is kept by every call. -/
structure Sound (tokens : List Token) (c : Session) : Prop where
  stream : c.state.stream = .ofTokens tokens
  valid : c.state.Valid
  depth : c.state.depth = c.opened
  room : c.opened ≤ maxDepth
  marks : ∀ m ∈ c.marks, m.pos ≤ (TokenStream.ofTokens tokens).limit

variable {tokens : List Token} {c c' : Session}

theorem sound_start (tokens : List Token) : Sound tokens (start tokens) where
  stream := rfl
  valid := State.valid_ofTokens tokens
  depth := rfl
  room := Nat.zero_le _
  marks := by simp [start]

namespace Sound

variable (h : Sound tokens c)

include h

theorem grows {t : State} (hst : Grows c.state t) : Sound tokens { c with state := t } where
  stream := hst.stream.trans h.stream
  valid := hst.valid h.valid
  depth := hst.depth.trans h.depth
  room := h.room
  marks := h.marks

theorem mark : Sound tokens { c with marks := c.marks ++ [⟨c.state.pos, c.state.errors.length⟩] }
    where
  stream := h.stream
  valid := h.valid
  depth := h.depth
  room := h.room
  marks := by
    intro m hm
    have hpos : c.state.pos ≤ c.state.stream.limit := h.valid
    rw [h.stream] at hpos
    simp at hm
    rcases hm with hm | hm
    · exact h.marks m hm
    · simpa [hm] using hpos

/-- A mark is valid for as long as the session lasts, since the stream does not change. -/
theorem rewind {m : Mark} (hm : m ∈ c.marks) :
    Sound tokens
      { c with state := { c.state with pos := m.pos, errors := c.state.errors.take m.errors } }
    where
  stream := h.stream
  valid := by
    show m.pos ≤ c.state.stream.limit
    rw [h.stream]
    exact h.marks m hm
  depth := h.depth
  room := h.room
  marks := h.marks

theorem step {call : Call} (hstep : c.step call = some c') : Sound tokens c' := by
  cases call with
  | run command =>
    simp only [Session.step, Option.map_eq_some_iff] at hstep
    obtain ⟨t, hleft, rfl⟩ := hstep
    have hgrows := command.grows c.state
    rw [Outcome.state_of_left? hleft] at hgrows
    exact h.grows hgrows
  | mark =>
    simp only [Session.step, Option.some.injEq] at hstep
    rw [← hstep]
    exact h.mark
  | rewind i =>
    simp only [Session.step, Option.map_eq_some_iff] at hstep
    obtain ⟨m, hm, rfl⟩ := hstep
    exact h.rewind (List.mem_of_getElem? hm)
  -- the only call that opens a level, and it looks at the limit first
  | opens =>
    have hdepth := h.depth
    have hroom := h.room
    simp only [Session.step] at hstep
    by_cases hfull : maxDepth ≤ c.state.depth
    · simp only [hfull, if_true, Option.some.injEq] at hstep
      rw [← hstep]
      exact h
    · simp only [hfull, if_false, Option.some.injEq] at hstep
      rw [← hstep]
      refine ⟨h.stream, h.valid, ?_, ?_, h.marks⟩
      · show c.state.depth + 1 = c.opened + 1
        omega
      · show c.opened + 1 ≤ maxDepth
        omega
  | closes =>
    have hdepth := h.depth
    have hroom := h.room
    simp only [Session.step] at hstep
    by_cases hnone : c.opened = 0
    · simp [hnone] at hstep
    · simp only [hnone, if_false, Option.some.injEq] at hstep
      rw [← hstep]
      refine ⟨h.stream, h.valid, ?_, ?_, h.marks⟩
      · show c.state.depth - 1 = c.opened - 1
        omega
      · show c.opened - 1 ≤ maxDepth
        omega

end Sound

theorem sound_run {calls : List Call} :
    ∀ {c}, Sound tokens c → c.run calls = some c' → Sound tokens c' := by
  induction calls with
  | nil =>
    intro c h hrun
    simp [run] at hrun
    rwa [← hrun]
  | cons call calls ih =>
    intro c h hrun
    simp [run, Option.bind_eq_some_iff] at hrun
    obtain ⟨c₁, hstep, hrest⟩ := hrun
    exact ih (h.step hstep) hrest

/-- A rule in a nested call runs between the opening and the closing of a level. -/
theorem run_nested (c : Session) (command : Command) (h : c.state.depth < maxDepth) :
    (c.run [.opens, .run command, .closes]).map Session.state =
      (nested command.rule c.state).left? := by
  have hroom : ¬ maxDepth ≤ c.state.depth := by omega
  cases hrun : command.rule { c.state with depth := c.state.depth + 1 } with
  | ok a t => simp [run, step, nested, hroom, hrun, Outcome.left?]
  | error d t => simp [run, step, nested, hroom, hrun, Outcome.left?]
  | fault f t => simp [run, step, nested, hroom, hrun, Outcome.left?]

/-- Whatever is called, one call after the other and without a fault: the stream stays as it was
made from the tokens, with an end mark at its end and its tokens numbered by their places; the
cursor does not pass the first end mark; and the open levels are those that a call opened and none
closed, so that outside of them every call leaves none open, with a value or with a diagnostic. -/
theorem run_keeps {calls : List Call} (h : (start tokens).run calls = some c) :
    c.state.stream = .ofTokens tokens ∧
      c.state.stream.tokens.back?.map (·.kind) = some .endMark ∧
      (∀ i (hi : i < c.state.stream.tokens.size), c.state.stream.tokens[i].index = i) ∧
      c.state.pos ≤ c.state.stream.tokens.findIdx (·.kind == .endMark) ∧
      c.state.depth = c.opened := by
  have hsound := sound_run (sound_start tokens) h
  exact ⟨hsound.stream, c.state.stream.closed, c.state.stream.numbered, hsound.valid,
    hsound.depth⟩

/-- The tokens of `let x; y`, with an end mark before the name at the end. -/
def brokenTokens : List Token :=
  [⟨.word "let", ⟨0, 3⟩, 0⟩, ⟨.word "x", ⟨4, 5⟩, 0⟩, ⟨.fixed .semicolon, ⟨5, 6⟩, 0⟩,
    .endMark 6 0, ⟨.word "y", ⟨7, 8⟩, 0⟩]

/-- A statement fails behind a mark, the session goes back and then forward again to a mark that
lies behind the diagnostics it has forgotten, and recovers in an open level. -/
def brokenCalls : List Call :=
  [.mark, .run (.statement false), .run (.record ⟨.aliasNotAllowed, .zero⟩), .mark, .rewind 0,
    .opens, .rewind 1, .run .recover, .run .recover, .run .advance]

theorem run_keeps_broken :
    ∃ c, (start brokenTokens).run brokenCalls = some c ∧ c.opened = 1 ∧ c.state.pos = 3 ∧
      c.state.pos ≤ c.state.stream.tokens.findIdx (·.kind == .endMark) ∧
      c.state.depth = c.opened := by
  have hfacts : ((start brokenTokens).run brokenCalls).map
      (fun c => (c.opened, c.state.pos)) = some (1, 3) := by
    decide +kernel
  cases hrun : (start brokenTokens).run brokenCalls with
  | none =>
    rw [hrun] at hfacts
    cases hfacts
  | some c =>
    rw [hrun] at hfacts
    obtain ⟨hopened, hpos⟩ := Prod.mk.inj (Option.some.inj hfacts)
    exact ⟨c, rfl, hopened, hpos, (run_keeps hrun).2.2.2⟩

end Session

end FrontEnd.Grammar
