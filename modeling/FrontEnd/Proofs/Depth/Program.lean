import FrontEnd.Proofs.Depth.Rules
import FrontEnd.Proofs.Mirror.Statement
import FrontEnd.Proofs.Safety
import FrontEnd.Proofs.Session

/-! The bound on nesting. The trees of a program are at most as deep as levels may be open, and no
run opens more levels than that: neither a sequence of calls, nor a rule on its way. -/
namespace FrontEnd

namespace Grammar

open Parse Node

variable {α : Type} {d : Nat} {R : α → α → Prop}

/-- The rule with a guard before it: with more levels open than there may be it is a fault. -/
def watched (p : Parse α) : Parse α := fun s =>
  if s.depth ≤ maxDepth then p s else .fault .overflow s

namespace Level

/-- The rules of a level with a guard before each. -/
def watched (g : Level) : Level where
  unary := Grammar.watched g.unary
  binary left least := Grammar.watched (g.binary left least)
  block := Grammar.watched g.block
  path segment place := Grammar.watched (g.path segment place)

/-- The rules where `room` levels may still be opened, with a guard wherever one of them is called
and another one where it goes on one level deeper. -/
def watchedRoom : Nat → Level
  | 0 => closed
  | room + 1 =>
    let g := (watchedRoom room).watched
    { unary := nested (Grammar.watched g.operand)
      binary := fun left least => nested (Grammar.watched (g.binaryChain left least))
      block := nested (Grammar.watched g.blockBody)
      path := fun segment place => nested (Grammar.watched (g.pathFrom segment place)) }

end Level

/-- A statement by the guarded rules. -/
def watchedStatement (inBlock : Bool) : Parse (Option Stmt) := fun s =>
  (Level.watchedRoom (maxDepth - s.depth)).watched.statement inBlock s

theorem Mirrors.watched {p q : Parse α} (h : Mirrors R d p q) (hd : d ≤ maxDepth) :
    Mirrors R d p (watched q) := by
  intro s t hst
  have hdepth := hst.depth'
  unfold Grammar.watched
  rw [if_pos (by omega)]
  exact h hst

theorem Level.Mirrored.watched {g h : Level} (hg : g.Mirrored d h) (hd : d ≤ maxDepth) :
    g.Mirrored d h.watched where
  unary := hg.unary.watched hd
  binary left least := (hg.binary left least).watched hd
  block := hg.block.watched hd
  path segment place := (hg.path segment place).watched hd

/-- The guards change nothing: a level is opened only where one is left. -/
theorem Level.Mirrored.watchedRoom (room : Nat) :
    ∀ d, d + room ≤ maxDepth → (Level.withRoom room).Mirrored d (Level.watchedRoom room) := by
  induction room with
  | zero =>
    intro d _
    exact closed
  | succ room ih =>
    intro d hd
    have hnext : d + 1 ≤ maxDepth := by omega
    have hg := (ih (d + 1) (by omega)).watched hnext
    exact
      { unary := ((Mirrors.operand hg).watched hnext).nested
        binary := fun left least => ((Mirrors.binaryChain hg left least).watched hnext).nested
        block := ((Mirrors.blockBody hg).watched hnext).nested
        path := fun segment place => ((Mirrors.pathFrom hg segment place).watched hnext).nested }

theorem Mirrors.watchedStatement (inBlock : Bool) (hd : d ≤ maxDepth) :
    Mirrors Eq d (Grammar.statement inBlock) (watchedStatement inBlock) := by
  intro s t hst
  have hg := (Level.Mirrored.watchedRoom (maxDepth - d) d (by omega)).watched hd
  unfold Grammar.statement Grammar.atDepth Grammar.watchedStatement
  rw [hst.depth, hst.depth']
  exact statement hg inBlock hst

theorem Alike.refl {s : State} (hs : s.Valid) : Alike s.depth s s where
  seen _ _ := rfl
  size := Nat.le_refl _
  pos := rfl
  errors := rfl
  depth := rfl
  depth' := rfl
  valid := hs

/-- No guard is hit on the way through a statement. -/
theorem watchedStatement_ne_fault {s : State} (hs : s.Valid) (hdepth : s.depth ≤ maxDepth)
    (inBlock : Bool) (f : Fault) (t : State) : watchedStatement inBlock s ≠ .fault f t := by
  have hsafe := ensures_statement hs inBlock
  have hrun := Mirrors.watchedStatement inBlock hdepth (.refl hs)
  intro hfault
  rw [hfault] at hrun
  cases hstatement : statement inBlock s with
  | ok stmt? u =>
    rw [hstatement] at hrun
    cases hrun
  | error e u =>
    rw [hstatement] at hrun
    cases hrun
  | fault f u => exact hsafe.no_fault f u hstatement

theorem gives_statement (inBlock : Bool) :
    Gives (statement inBlock) fun s? => ∀ s ∈ s?, Bounded (maxDepth + 1) (.stmt s) where
  value {s t s?} hrun := by
    have hfit := Level.withRoom_fit (maxDepth - s.depth)
    intro stmt hstmt
    exact ((hfit.statement inBlock).value hrun stmt hstmt).mono (by omega)

theorem gives_programRound {stmts : Array Stmt}
    (hstmts : ∀ s ∈ stmts, Bounded (maxDepth + 1) (.stmt s)) :
    Gives (programRound stmts)
      (Round.Holds (fun stmts => ∀ s ∈ stmts, Bounded (maxDepth + 1) (.stmt s))
        fun stmts => ∀ s ∈ stmts, Bounded (maxDepth + 1) (.stmt s)) := by
  apply Gives.skip
  intro more
  apply Gives.ite
  · apply (gives_statement false).attempt.bind
    intro r hr
    cases r with
    -- a statement that is refused adds nothing to the program
    | error d => exact Gives.skip fun _ => Gives.skip fun _ => Gives.pure hstmts
    | ok s? =>
      cases s? with
      | none => exact Gives.pure hstmts
      | some s =>
        apply Gives.pure
        intro x hx
        simp at hx
        rcases hx with hx | hx
        · exact hstmts x hx
        · rw [hx]
          exact hr (some s) rfl s rfl
  · exact Gives.pure hstmts

theorem gives_program : Gives program fun body => ∀ s ∈ body, Bounded (maxDepth + 1) (.stmt s) := by
  apply (Gives.loop (fun _ h => gives_programRound h) (by simp)).bind
  intro stmts hstmts
  apply Gives.skip
  intro token
  apply Gives.ite
  · exact Gives.pure (by simpa using hstmts)
  · exact Gives.skip fun _ => Gives.skip fun _ => Gives.pure (by simpa using hstmts)

end Grammar

namespace Program

open Grammar

theorem level_le_of_ofTokens {tokens : List Token} {program : Program}
    (h : ofTokens tokens = .ok program) {level : Nat} {node : Node}
    (hat : program.At level node) : level ≤ maxDepth := by
  unfold ofTokens at h
  cases hrun : Grammar.program (.ofTokens tokens) with
  | ok body t =>
    rw [hrun] at h
    simp only at h
    split at h
    · obtain ⟨s, hs, hlevel⟩ := hat
      cases h
      rw [body_ofBody] at hs
      exact Nat.le_of_lt_succ (gives_program.value hrun s hs level node hlevel)
    · cases h
  | error d t => simp [hrun] at h
  | fault f t => simp [hrun] at h

/-- Nesting is bounded. In a program that was read from tokens no node lies below the level
`maxDepth`. In a session no call leaves more levels open than that, and neither does a statement
that is read from there at any place where a rule opens a level or goes on one level deeper. -/
theorem ofTokens_bounded (tokens : List Token) :
    (∀ program, ofTokens tokens = .ok program →
      ∀ level node, program.At level node → level ≤ maxDepth) ∧
    ∀ calls c, (Session.start tokens).run calls = some c →
      c.state.depth ≤ maxDepth ∧
        ∀ inBlock f t, watchedStatement inBlock c.state ≠ .fault f t := by
  constructor
  · intro program h level node hat
    exact level_le_of_ofTokens h hat
  · intro calls c h
    have hsound := Session.sound_run (Session.sound_start tokens) h
    have hdepth : c.state.depth ≤ maxDepth := by
      rw [hsound.depth]
      exact hsound.room
    exact ⟨hdepth, watchedStatement_ne_fault hsound.valid hdepth⟩

/-- The tokens of `return`, so many signs, and `1;`. -/
def negatedTokens (signs : Nat) : List Token :=
  [⟨.word "return", ⟨0, 6⟩, 0⟩] ++ List.replicate signs ⟨.fixed .dash, ⟨7, 8⟩, 0⟩ ++
    [⟨⟨.integer, "1", some .decimal⟩, ⟨8, 9⟩, 0⟩, ⟨.fixed .semicolon, ⟨9, 10⟩, 0⟩]

/-- With 63 signs before it the number lies on the last level, and the program is still read; the
calls stand inside of two open levels. -/
theorem ofTokens_bounded_negated :
    (∃ program, ofTokens (negatedTokens 63) = .ok program ∧ program.body.length = 1 ∧
      ∀ level node, program.At level node → level ≤ maxDepth) ∧
    ∃ c, (Session.start (negatedTokens 63)).run [.opens, .run .advance, .opens] = some c ∧
      c.opened = 2 ∧ c.state.depth ≤ maxDepth ∧
        ∀ f t, watchedStatement true c.state ≠ .fault f t := by
  have hlength : (ofTokens (negatedTokens 63)).toOption.map (·.body.length) = some 1 := by
    decide +kernel
  have hopened : ((Session.start (negatedTokens 63)).run
      [.opens, .run .advance, .opens]).map (·.opened) = some 2 := by
    decide +kernel
  constructor
  · cases hrun : ofTokens (negatedTokens 63) with
    | error e =>
      rw [hrun] at hlength
      cases hlength
    | ok program =>
      rw [hrun] at hlength
      exact ⟨program, rfl, Option.some.inj hlength,
        (ofTokens_bounded (negatedTokens 63)).1 program hrun⟩
  · cases hrun : (Session.start (negatedTokens 63)).run [.opens, .run .advance, .opens] with
    | none =>
      rw [hrun] at hopened
      cases hopened
    | some c =>
      rw [hrun] at hopened
      have hbound := (ofTokens_bounded (negatedTokens 63)).2 _ c hrun
      exact ⟨c, rfl, Option.some.inj hopened, hbound.1, hbound.2 true⟩

/-- One sign more is too many. -/
example : (ofTokens (negatedTokens 64)).toOption.isNone := by
  decide +kernel

end Program

end FrontEnd
