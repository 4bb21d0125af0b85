import FrontEnd.Proofs.Reading.Program

/-! Reading tokens always comes to an end without a fault, whatever the tokens are: kinds, values,
indices and end marks may stand anywhere. -/
namespace FrontEnd

namespace Grammar

open Parse

variable {α β : Type}

/-- A loop that is started with `a` in the state `s` comes to a round with `b` in the state `t`. -/
inductive ReachesRound (round : α → Parse (Round α β)) : α → State → α → State → Prop where
  | first {a : α} {s : State} : ReachesRound round a s a s
  | later {a a' b : α} {s s' t : State} (h : round a s = .ok (.again a') s')
      (hrest : ReachesRound round a' s' b t) : ReachesRound round a s b t

/-- Every round of the loop passes a token or is the last one. -/
def Advances (round : α → Parse (Round α β)) (a : α) (s : State) : Prop :=
  ∀ b t b' u, ReachesRound round a s b t → round b t = .ok (.again b') u → t.pos < u.pos

/-- What holds before the first round and is kept by every round holds before each of them. -/
theorem ReachesRound.invariant {round : α → Parse (Round α β)} {post : β → State → Prop}
    {s₀ : State} (inv : α → State → Prop)
    (hround : ∀ a t, Grows s₀ t → t.Valid → inv a t → Ensures (round a) t
      (AfterRound (fun a' u => t.pos < u.pos ∧ inv a' u) post))
    {a b : α} {s t : State} (h : ReachesRound round a s b t) :
    Grows s₀ s → s.Valid → inv a s → Grows s₀ t ∧ t.Valid ∧ inv b t := by
  induction h with
  | first =>
    intro hs hv ha
    exact ⟨hs, hv, ha⟩
  | later hrun _ ih =>
    intro hs hv ha
    obtain ⟨hgrows, -, hinv⟩ := (hround _ _ hs hv ha).ok hrun
    exact ih (hs.trans hgrows) (hgrows.valid hv) hinv

/-- The condition that a loop has a contract at all says that it advances. -/
theorem advances_of_invariant {round : α → Parse (Round α β)} {a : α} {s : State}
    (inv : α → State → Prop) (post : β → State → Prop) (hv : s.Valid) (ha : inv a s)
    (hround : ∀ a t, Grows s t → t.Valid → inv a t → Ensures (round a) t
      (AfterRound (fun a' u => t.pos < u.pos ∧ inv a' u) post)) : Advances round a s := by
  intro b t b' u hreach hrun
  obtain ⟨ht, hvt, hb⟩ := hreach.invariant inv hround (Grows.refl s) hv ha
  obtain ⟨-, hlt, -⟩ := (hround b t ht hvt hb).ok hrun
  exact hlt

theorem advances_programRound (tokens : List Token) :
    Advances programRound #[] (.ofTokens tokens) := by
  refine advances_of_invariant (BodyRead (.ofTokens tokens)) (BodyRead (.ofTokens tokens))
    (State.valid_ofTokens tokens) ?_ ?_
  · intro _ j rest hrest
    simpa using hrest
  · intro stmts t hst ht hstmts
    refine ensures_programRound hst ht ?_ hstmts
    rw [hst.depth]
    exact State.depth_ofTokens_lt tokens

theorem advances_blockRound (room : Nat) {s : State} (hs : s.Valid) :
    Advances (Level.withRoom room).blockRound #[] s := by
  refine advances_of_invariant (StmtsRead s) (StmtsDone s) hs ?_ ?_
  · intro _ j rest tail hrest
    simpa using hrest
  · intro stmts t hst ht hstmts
    exact (Level.withRoom_sound room).blockRound hst ht hstmts

end Grammar

/-- Precedences are small enough to be counted up in one byte. -/
theorem Lexeme.succ_bindingPower_lt {lexeme : Lexeme} {level : Nat}
    {associativity : Associativity}
    (h : lexeme.bindingPower? = some (level, associativity)) : level + 1 < UInt8.size := by
  obtain ⟨operation, -, hlevel, -⟩ := Lexeme.bindingPower?_eq_some h
  have hcast : operation.level ≤ Operation.cast.level :=
    Operation.level_le_of_right operation rfl
  have hmax : Operation.cast.level = 14 := rfl
  have hsize : UInt8.size = 256 := rfl
  omega

namespace Program

open Grammar

theorem ofTokens_ne_fault (tokens : List Token) (f : Fault) :
    ofTokens tokens ≠ .error (.fault f) := by
  have h := ensures_program (State.valid_ofTokens tokens) (State.depth_ofTokens_lt tokens)
  unfold ofTokens
  cases hrun : program (.ofTokens tokens) with
  | ok body t =>
    simp only
    split <;> simp
  | error d t => simp
  | fault f' t => exact absurd hrun (h.no_fault f' t)

/-- Reading tokens has no fault: no operator or function header is read where there is none, no
range is inverted, no place outside the list is looked at and no loop runs on. The precedence that
is counted up stays in a byte, and the rounds of the two loops that go on after an error, over the
statements of the program and over the items of a block at any depth, pass a token each unless they
are the last. -/
theorem ofTokens_total (tokens : List Token) :
    (∀ f, ofTokens tokens ≠ .error (.fault f)) ∧
      (∀ lexeme level associativity,
        Lexeme.bindingPower? lexeme = some (level, associativity) → level + 1 < UInt8.size) ∧
      Advances programRound #[] (.ofTokens tokens) ∧
      ∀ room s, State.Valid s → Advances (Level.withRoom room).blockRound #[] s :=
  ⟨ofTokens_ne_fault tokens, fun _ _ _ h => Lexeme.succ_bindingPower_lt h,
    advances_programRound tokens, fun room _ hs => advances_blockRound room hs⟩

/-- An opening brace and a `let` with a radix, both out of place; an end mark in the middle; and a
semicolon with a value, behind which no end mark stands. -/
def strayTokens : List Token :=
  [⟨.fixed .openCurly, ⟨9, 3⟩, 7⟩, ⟨⟨.word, "let", some .hex⟩, ⟨0, 0⟩, 7⟩, .endMark 5 5,
    ⟨⟨.semicolon, "x", none⟩, ⟨0, 0⟩, 0⟩]

/-- Such tokens are refused and do no harm, and neither do the items behind the brace. -/
theorem ofTokens_total_stray :
    (∃ ds, ofTokens strayTokens = .error (.refused ds)) ∧
    Lexeme.bindingPower? (.fixed .star) = some (13, .left) ∧ 13 + 1 < UInt8.size ∧
    State.Valid (State.ofTokens strayTokens).next ∧
      Advances (Level.withRoom 2).blockRound #[] (State.ofTokens strayTokens).next := by
  obtain ⟨hfault, hpower, -, hadvances⟩ := ofTokens_total strayTokens
  have hrefused : (ofTokens strayTokens).toOption.isNone = true := by decide +kernel
  have hvalid : State.Valid (State.ofTokens strayTokens).next := by
    unfold State.Valid
    decide +kernel
  have hstar : Lexeme.bindingPower? (.fixed .star) = some (13, .left) := rfl
  refine ⟨?_, hstar, hpower _ _ _ hstar, hvalid, hadvances 2 _ hvalid⟩
  cases hrun : ofTokens strayTokens with
  | ok program =>
    rw [hrun] at hrefused
    cases hrefused
  | error failure =>
    cases failure with
    | refused ds => exact ⟨ds, rfl⟩
    | fault f => exact absurd hrun (hfault f)

end Program

end FrontEnd
