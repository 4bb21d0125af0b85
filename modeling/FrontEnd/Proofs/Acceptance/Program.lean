import FrontEnd.Proofs.Acceptance.Block

/-! The rules at every depth read what stands in the tokens, and so does the rule for programs:
a program that stands in the tokens is accepted, unless there are too few levels for it. -/
namespace FrontEnd.Grammar

open Parse

variable {bad : Diagnostic → Prop} {s : State} {j : Nat}

theorem LinksAt.chainAt {T : Nat → Lexeme} {links : Links} :
    ∀ {i j : Nat}, LinksAt T i j links → ChainAt OperandAt T i j links := by
  induction links with
  | nil =>
    intro i j h
    cases h
    exact .nil
  | cons l links ih =>
    intro i j h
    cases h with
    | cons hop hu hlinks => exact .cons hop hu (ih hlinks)

theorem ChainAt.linksAt {T : Nat → Lexeme} {i j : Nat} {links : Links}
    (h : ChainAt OperandAt T i j links) : LinksAt T i j links := by
  induction h with
  | nil => exact .nil
  | cons hop hu _ ih => exact .cons hop hu ih

/-- Nothing is asked of a chain or of its parts. -/
theorem Budget.free : Budget (fun _ _ => True) fun _ _ => True :=
  ⟨fun _ _ _ _ => trivial, fun _ _ _ _ => trivial, fun _ _ _ _ => trivial⟩

namespace Level

theorem complete_closed (hbad : ∀ r, bad ⟨.nestingTooDeep maxDepth, r⟩) : closed.Complete bad where
  absent _ _ := .inr (.inl ⟨_, _, rfl, hbad _⟩)
  unary _ _ := .inr (.inl ⟨_, _, rfl, hbad _⟩)
  binary _ _ _ _ _ := .inr (.inl ⟨_, _, rfl, hbad _⟩)
  block _ _ := .inr (.inl ⟨_, _, rfl, hbad _⟩)
  path _ _ := .inr (.inl ⟨_, _, rfl, hbad _⟩)

theorem Complete.above {g : Level} [g.Keeps] (hbad : ∀ r, bad ⟨.nestingTooDeep maxDepth, r⟩)
    (hg : g.Complete bad) : g.above.Complete bad where
  absent {s} hs h := by
    refine Achieves.nested (j := s.pos) (fun _ => hbad) ?_
    intro _
    exact .inl ⟨run_operand_none h, hs⟩
  unary {s} {j} {u} hs h := by
    refine Achieves.nested (fun _ => hbad) ?_
    intro _
    exact hg.operand (s := s.withDepth (s.depth + 1)) hs h
  binary {s} {j} {least} {left} {e} {links} hs hlinks hgroup hleast hstop := by
    have hchains : g.ReadsChains bad OperandAt _ _ (s.depth + 1) :=
      { budget := Budget.free
        forward := fun _ _ _ _ h => h.lt
        unary := fun _ _ hs _ hu => hg.unary hs hu
        binary := fun hs _ hlinks hgroup hleast hstop _ =>
          hg.binary hs hlinks.linksAt hgroup hleast hstop }
    refine Achieves.nested (fun _ => hbad) ?_
    intro _
    exact hchains.binaryChain (s := s.withDepth (s.depth + 1)) hs rfl hlinks.chainAt hgroup hleast
      hstop trivial
  block {s} {j} {b} hs h := by
    refine Achieves.nested (fun _ => hbad) ?_
    intro _
    exact hg.blockBody (s := s.withDepth (s.depth + 1)) hs h
  path {s} {j} {segment} {place} {p} hs h := by
    refine Achieves.nested (fun _ => hbad) ?_
    intro _
    exact hg.pathFrom (s := s.withDepth (s.depth + 1)) hs h

theorem complete_withRoom (hbad : ∀ r, bad ⟨.nestingTooDeep maxDepth, r⟩) (room : Nat) :
    (withRoom room).Complete bad := by
  induction room with
  | zero => exact complete_closed hbad
  | succ room ih => exact ih.above hbad

end Level

theorem achieves_statement (hbad : ∀ r, bad ⟨.nestingTooDeep maxDepth, r⟩) (hs : s.Valid)
    {stmt : Stmt} (h : StmtAt s.lexeme s.pos j stmt) (inBlock : Bool) :
    Achieves bad (statement inBlock) s (some stmt) (s.moveTo j) :=
  (Level.complete_withRoom hbad (maxDepth - s.depth)).statement hs h inBlock

/-- What a round of a program does with the statement it has read. -/
instance keeps_afterStatement (stmts : Array Stmt) (stmt? : Except Diagnostic (Option Stmt)) :
    Keeps (match stmt? with
      | .ok (some s) => pure (.again (stmts.push s))
      | .ok none => pure (.done stmts)
      | .error d => do
        record d
        recover
        pure (.again stmts) : Parse (Round (Array Stmt) (Array Stmt))) := by
  rcases stmt? with d | stmt?
  · infer_instance
  · cases stmt? <;> infer_instance

theorem achieves_programRounds (hbad : ∀ r, bad ⟨.nestingTooDeep maxDepth, r⟩)
    (stmts : List Stmt) :
    ∀ {s : State} (acc : Array Stmt) {rounds : Nat}, s.Valid →
      ProgramAt s.lexeme s.pos j stmts → s.remaining < rounds →
      Achieves bad (loopFor programRound rounds acc) s (acc ++ stmts.toArray) (s.moveTo j) := by
  induction stmts with
  | nil =>
    intro s acc rounds hs h hr
    obtain ⟨rounds, rfl⟩ := Nat.exists_eq_succ_of_ne_zero (Nat.ne_zero_of_lt hr)
    cases h with
    | nil hend =>
      have hno : hasTokens s = .ok false s := by
        unfold hasTokens
        rw [run_bind (run_isAt_true (show s.current.kind = .endMark from hend))]
        rfl
      rw [Array.append_empty]
      refine Achieves.done ?_ inferInstance
      unfold programRound
      exact Achieves.step hno (Achieves.pure hs)
  | cons stmt stmts ih =>
    intro s acc rounds hs h hr
    obtain ⟨rounds, rfl⟩ := Nat.exists_eq_succ_of_ne_zero (Nat.ne_zero_of_lt hr)
    cases h with
    | @cons _ k _ _ _ hstmt hstmts =>
      have hend : s.current.kind ≠ .endMark := fun hk => hstmt.kind_ne (.inr hk)
      have hmore : hasTokens s = .ok true s := by
        unfold hasTokens
        rw [run_bind (run_isAt_false hend)]
        rfl
      have hround : Achieves bad (programRound acc) s (.again (acc.push stmt)) (s.moveTo k) := by
        unfold programRound
        refine Achieves.step hmore ?_
        -- a diagnostic that stops the statement is recorded, so the whole run is blamed for it
        refine (achieves_statement hbad hs hstmt false).attempt_bind Achieves.pure ?_
          (keeps_afterStatement acc)
        intro d t hd
        exact blames_record hd inferInstance
      refine hround.again ?_ inferInstance
      intro hk
      have hrest := ih (s := s.moveTo k) (acc.push stmt) hk hstmts
        (remaining_moveTo_lt hs hend hr hstmt.lt)
      simpa using hrest

theorem ProgramAt.endMark {T : Nat → Lexeme} {i : Nat} {stmts : List Stmt}
    (h : ProgramAt T i j stmts) : (T j).kind = .endMark := by
  induction h with
  | nil h => exact h
  | cons _ _ ih => exact ih

theorem achieves_program (hbad : ∀ r, bad ⟨.nestingTooDeep maxDepth, r⟩) (hs : s.Valid)
    {stmts : List Stmt} (h : ProgramAt s.lexeme s.pos j stmts) :
    Achieves bad program s stmts (s.moveTo j) := by
  have hloop := achieves_programRounds hbad stmts #[] hs h (Nat.lt_succ_self _)
  rw [Array.empty_append] at hloop
  unfold program
  refine Achieves.bind hloop ?_ inferInstance
  intro hj
  have hend : (s.moveTo j).current.kind = .endMark := h.endMark
  refine Achieves.step run_current ?_
  rw [if_pos hend]
  exact Achieves.pure hj

end FrontEnd.Grammar

namespace FrontEnd.Program

open Grammar

/-- A program that stands in the tokens is what they say, unless a level is missing for it. -/
theorem ofTokens_of_programAt {tokens : List Token} {body : List Stmt} {j : Nat}
    (h : ProgramAt (State.ofTokens tokens).lexeme 0 j body) :
    ofTokens tokens = .ok (ofBody body) ∨
      ∃ ds, ofTokens tokens = .error (.refused ds) ∧
        ∃ d ∈ ds, d.cause = .nestingTooDeep maxDepth := by
  have hprogram : Achieves (fun d => d.cause = .nestingTooDeep maxDepth) program
      (State.ofTokens tokens) body ((State.ofTokens tokens).moveTo j) :=
    achieves_program (fun _ => rfl) (State.valid_ofTokens tokens) h
  unfold ofTokens
  rcases hprogram with ⟨hrun, -⟩ | ⟨d, t, hrun, hbad⟩ | ⟨d, hd, hbad⟩
  · left
    rw [hrun]
    rfl
  · right
    rw [hrun]
    exact ⟨_, rfl, d, by simp, hbad⟩
  · right
    -- a diagnostic was recorded, so however the run ends it is refused
    have hno := (ensures_program (State.valid_ofTokens tokens)
      (State.depth_ofTokens_lt tokens)).no_fault
    cases hrun : Grammar.program (State.ofTokens tokens) with
    | fault f t => exact absurd hrun (hno f t)
    | error d' t =>
      rw [hrun] at hd
      exact ⟨_, rfl, d, List.mem_append_left _ hd, hbad⟩
    | ok body' t =>
      rw [hrun] at hd
      have hsome : t.errors.isEmpty = false := by
        rw [List.isEmpty_eq_false_iff]
        exact List.ne_nil_of_mem hd
      simp only [hsome]
      exact ⟨_, rfl, d, hd, hbad⟩

end FrontEnd.Program
