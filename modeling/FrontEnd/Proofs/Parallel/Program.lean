import FrontEnd.Proofs.Parallel.Block

/-! Programs in two runs side by side. From a place where a statement may start, a run goes on as it
would on the tokens from there alone: it reads the same statements and records the same diagnostics,
moved to their places. -/
namespace FrontEnd

namespace Grammar

open Parse

variable {K : Link} {s t : State}

namespace Link

/-- The second run is further on, shows all that the first one shows, and shares all its
diagnostics. -/
def total (offset : Nat) (earlier : List Diagnostic) : Link where
  offset := offset
  deeper := 0
  earlier := earlier
  bad _ := False
  shown _ := True
  shown_of_le _ h := h

variable {α : Type} (k : Nat) (es : List Diagnostic)

theorem limited_total : (total k es).Limited :=
  fun _ _ h => h trivial

theorem deep_total : (total k es).Deep :=
  .inl rfl

/-- Nothing but a fault excuses a run that shares everything. -/
theorem Excused.fault_of_total {k : Nat} {es : List Diagnostic} {o : Outcome α}
    (h : (total k es).Excused ((total k es).Beyond true) o) : ∃ f s, o = .fault f s := by
  cases o with
  | ok a s =>
    rcases h with ⟨_, -, hno⟩ | ⟨_, -, hno⟩
    · exact (hno trivial).elim
    · exact hno.elim
  | error d s =>
    rcases h with hno | hno | ⟨_, -, hno⟩
    · exact hno.elim
    · exact (hno trivial).elim
    · exact hno.elim
  | fault f s => exact ⟨f, s, rfl⟩

end Link

/-- The end of a program behind its statements. -/
def programEnd (stmts : Array Stmt) : Parse (List Stmt) := do
  let token ← current
  if token.kind = .endMark then pure stmts.toList
  else
    record (← diagnosticHere (.expectedEnd token.text))
    pure stmts.toList

/-- A program from the cursor on, behind the statements before it. -/
def programFrom (rounds : Nat) (stmts : Array Stmt) : Parse (List Stmt) :=
  loopFor programRound rounds stmts >>= programEnd

theorem program_apply (s : State) : program s = programFrom (s.remaining + 1) #[] s := rfl

theorem run_hasTokens : hasTokens s = .ok (!(s.current.kind == .endMark)) s := rfl

/-- The same round behind further statements. -/
def Parse.Round.behind (before : Array Stmt) :
    Round (Array Stmt) (Array Stmt) → Round (Array Stmt) (Array Stmt)
  | .again stmts => .again (before ++ stmts)
  | .done stmts => .done (before ++ stmts)

/-- What was read before is handed on, and nothing depends on it. -/
theorem programRound_append (before stmts : Array Stmt) :
    programRound (before ++ stmts) = Round.behind before <$> programRound stmts := by
  unfold programRound
  rw [map_bind]
  congr 1
  funext more
  cases more with
  | false => rfl
  | true =>
    simp only [if_true, map_bind]
    congr 1
    funext stmt?
    rcases stmt? with d | _ | stmt
    · simp only [map_bind, map_pure, Round.behind]
    · rfl
    · simp only [map_pure, Round.behind, Array.append_push]

theorem loopFor_programRound_append (before : Array Stmt) (rounds : Nat) :
    ∀ stmts : Array Stmt, loopFor programRound rounds (before ++ stmts) =
      (before ++ ·) <$> loopFor programRound rounds stmts := by
  induction rounds with
  | zero =>
    intro stmts
    rfl
  | succ rounds ih =>
    intro stmts
    rw [loopFor, loopFor, programRound_append, bind_map_left, map_bind]
    congr 1
    funext r
    cases r with
    | again stmts => exact ih stmts
    | done stmts => rfl

theorem programFrom_append (before : Array Stmt) (rounds : Nat) :
    programFrom rounds before = (before.toList ++ ·) <$> programFrom rounds #[] := by
  have h := loopFor_programRound_append before rounds #[]
  rw [Array.append_empty] at h
  unfold programFrom
  rw [h, bind_map_left, map_bind]
  congr 1
  funext stmts
  unfold programEnd
  rw [map_bind]
  congr 1
  funext token
  split
  · simp only [map_pure, Array.toList_append]
  · simp only [map_bind, map_pure, Array.toList_append]

namespace Follows

/-- A statement at the depth of the state. -/
theorem statementAt (hlimited : K.Limited) (hdeep : K.Deep) (inBlock : Bool) :
    Follows K (K.Unsure inBlock) (Grammar.statement inBlock) (Grammar.statement inBlock) :=
  atDepth fun _ _ hle heq =>
    statement (.withRoom hlimited hdeep hle heq) (Level.withRoom_sound _) inBlock

theorem programRound (hlimited : K.Limited) (hdeep : K.Deep) (stmts : Array Stmt) :
    Follows K (K.Beyond true) (programRound stmts)
      (programRound (Shift.shift K.offset stmts)) := by
  refine hasTokens.bind ?_
  rintro more _ rfl
  refine ite ((statementAt hlimited hdeep false).attempt.bindWith ?_ ?_) (pure rfl)
  · rintro (d | stmt?) _ rfl
    · exact resume d stmts
    · cases stmt? with
      | none => exact pure rfl
      | some stmt => exact pure (congrArg Round.again (Shift.shift_push K.offset stmts stmt).symm)
  · rintro (d | stmt?) s _ hgrows hex
    · refine .record (hex.elim id (hlimited _ d)) ?_
      exact (recover.bind (K := K) fun _ _ _ => pure rfl).grows
    · have hbeyond : K.Beyond true stmt? s := by
        cases stmt? with
        | none => exact hex.elim id fun h => absurd h.1 Bool.false_ne_true
        | some stmt => exact Link.Beyond.ahead hex
      exact .of_beyond hbeyond hgrows

theorem programFrom (hlimited : K.Limited) (hdeep : K.Deep) {rounds rounds' : Nat}
    (h : rounds ≤ rounds') :
    Follows K (K.Beyond true) (programFrom rounds #[]) (programFrom rounds' #[]) := by
  have hloop := loopForWith (programRound hlimited hdeep) (fun _ _ h => h) (fun _ _ h => h)
    (fun _ _ h => h) rounds #[] h
  rw [Shift.shift_empty] at hloop
  refine hloop.bind ?_
  rintro stmts _ rfl
  refine current.bind ?_
  rintro token _ ⟨span, rfl⟩
  have hlist : Moved K.offset stmts.toList (Shift.shift K.offset stmts).toList :=
    Array.toList_map
  refine ite (pure hlist) ((diagnosticHere _).bind ?_)
  rintro d _ rfl
  refine (record d).bind ?_
  intro _ _ _
  exact pure hlist

end Follows

theorem grows_statement (s : State) : Grows s (statement false s).state :=
  (Follows.statementAt (Link.limited_total 0 []) (Link.deep_total 0 []) false).grows s

theorem grows_programRound (stmts : Array Stmt) (s : State) :
    Grows s (programRound stmts s).state :=
  (Follows.programRound (Link.limited_total 0 []) (Link.deep_total 0 []) stmts).grows s

theorem grows_programRounds (rounds : Nat) (stmts : Array Stmt) (s : State) :
    Grows s (loopFor programRound rounds stmts s).state :=
  (Follows.loopForWith (Follows.programRound (Link.limited_total 0 [])
    (Link.deep_total 0 [])) (fun _ _ h => h) (fun _ _ h => h) (fun _ _ h => h) rounds stmts
    (Nat.le_refl _)).grows s

/-- On a list of tokens behind others a run is where one on the list alone starts. -/
theorem linked_ofTokens {a b : List Token} (ha : ∀ token ∈ a, token.kind ≠ .endMark)
    (hstream : t.stream = .ofTokens (a ++ b)) (hpos : t.pos = a.length) (hdepth : t.depth = 0)
    (hvalid : t.Valid) : Linked (.total a.length t.errors) (.ofTokens b) t where
  lexeme i _ := by
    rw [State.lexeme, hstream]
    exact TokenStream.lexeme_ofTokens_append ha b i
  size := by
    rw [hstream, TokenStream.size_ofTokens, TokenStream.length_close_append ha]
    show (TokenStream.ofTokens b).tokens.size + a.length ≤ _
    rw [TokenStream.size_ofTokens]
    omega
  pos := by
    rw [hpos]
    exact (Nat.zero_add _).symm
  errors := (List.append_nil _).symm
  depth := hdepth.symm
  valid := State.valid_ofTokens b
  valid' := hvalid

end Grammar

namespace Program

open Grammar

/-- What the outcome of a run says. -/
def ofOutcome : Outcome (List Stmt) → Except (Failure (List Diagnostic)) Program
  | .ok body s => if s.errors.isEmpty then .ok (.ofBody body) else .error (.refused s.errors)
  | .error d s => .error (.refused (s.errors ++ [d]))
  | .fault f _ => .error (.fault f)

theorem ofTokens_eq (tokens : List Token) :
    ofTokens tokens = ofOutcome (programFrom ((State.ofTokens tokens).remaining + 1) #[]
      (.ofTokens tokens)) := by
  unfold ofTokens
  rw [program_apply]
  cases programFrom ((State.ofTokens tokens).remaining + 1) #[] (.ofTokens tokens) <;> rfl

/-- A run that goes on behind other tokens says what a run on the rest alone says, behind the
statements and the diagnostics from before. -/
theorem ofOutcome_programFrom {b : List Token} {t : State} {k rounds : Nat} {es : List Diagnostic}
    (hst : Linked (.total k es) (.ofTokens b) t) (hr : (State.ofTokens b).remaining < rounds)
    (before : Array Stmt) :
    (∀ q, ofTokens b = .ok q → ofOutcome (programFrom rounds before t) =
      if es.isEmpty then .ok (.ofBody (before.toList ++ q.body.map (Stmt.shift k)))
      else .error (.refused es)) ∧
    ∀ ds, ofTokens b = .error (.refused ds) → ofOutcome (programFrom rounds before t) =
      .error (.refused (es ++ ds.map (Diagnostic.shift k))) := by
  have hrun := (Follows.programFrom (Link.limited_total k es) (Link.deep_total k es) hr).run hst
  rw [programFrom_append, Parse.map_apply, ofTokens_eq]
  rcases hrun.cases with ⟨body, _, u, v, hb, ht, rfl, huv⟩ | ⟨d, u, v, hb, ht, huv⟩ | hex
  · rw [hb, ht]
    have herrors : v.errors = es ++ u.errors.map (Diagnostic.shift k) := huv.errors
    constructor
    · intro q hq
      simp only [ofOutcome] at hq ⊢
      split at hq
      · rename_i hclean
        cases hq
        rw [herrors, List.isEmpty_iff.mp hclean, List.map_nil, List.append_nil, body_ofBody]
        rfl
      · cases hq
    · intro ds hds
      simp only [ofOutcome] at hds ⊢
      split at hds
      · cases hds
      · rename_i hdirty
        cases hds
        rw [herrors, if_neg (by simpa using fun _ => hdirty)]
  · rw [hb, ht]
    have herrors : v.errors = es ++ u.errors.map (Diagnostic.shift k) := huv.errors
    constructor
    · intro q hq
      cases hq
    · intro ds hds
      cases hds
      simp only [ofOutcome, herrors, List.map_append, List.append_assoc]
      rfl
  -- a total link excuses a fault only
  · obtain ⟨f, u, hb⟩ := hex.fault_of_total
    rw [hb]
    constructor
    · intro q hq
      cases hq
    · intro ds hds
      cases hds

end Program

end FrontEnd
