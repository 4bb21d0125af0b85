import FrontEnd.Proofs.Parallel.Program

/-! Programs put one behind the other. No statement looks behind its own last token, so what stands
behind a program does not change how it is read, and what is read behind it does not depend on the
program. -/
namespace FrontEnd

namespace Grammar

open Parse

variable {s t u : State} {n : Nat}

namespace Link

/-- Two runs on streams that show the same before place `n`. -/
def front (n : Nat) : Link where
  offset := 0
  deeper := 0
  earlier := []
  bad _ := True
  shown i := i < n
  shown_of_le := Nat.lt_of_le_of_lt

theorem limited_front : (front n).Limited :=
  fun _ _ _ => trivial

theorem deep_front : (front n).Deep :=
  .inl rfl

end Link

/-- A list of tokens and the same list with others behind it. -/
theorem linked_front (a b : List Token) (ha : ∀ token ∈ a, token.kind ≠ .endMark) :
    Linked (.front a.length) (.ofTokens a) (.ofTokens (a ++ b)) where
  lexeme i hi := by
    have hlt : i < a.length := hi
    have htoken := List.getElem?_eq_getElem hlt
    show (TokenStream.ofTokens (a ++ b)).lexeme i = (TokenStream.ofTokens a).lexeme i
    rw [TokenStream.lexeme_ofTokens htoken,
      TokenStream.lexeme_ofTokens (by rw [List.getElem?_append_left hlt, htoken])]
  size := by
    show (TokenStream.ofTokens a).tokens.size ≤ (TokenStream.ofTokens (a ++ b)).tokens.size
    have hnil := TokenStream.length_close_append ha []
    have hpos := List.length_pos_iff.mpr (TokenStream.close_ne_nil b)
    rw [List.append_nil] at hnil
    rw [TokenStream.size_ofTokens, TokenStream.size_ofTokens,
      TokenStream.length_close_append ha, hnil]
    exact Nat.add_le_add_left hpos _
  pos := rfl
  errors := rfl
  depth := rfl
  valid := State.valid_ofTokens a
  valid' := State.valid_ofTokens (a ++ b)

/-- A round that reads a statement. -/
theorem run_programRound {stmts : Array Stmt} {stmt : Stmt} (hend : s.current.kind ≠ .endMark)
    (h : statement false s = .ok (some stmt) t) :
    programRound stmts s = .ok (.again (stmts.push stmt)) t := by
  have hattempt : attempt (statement false) s = .ok (.ok (some stmt)) t := by
    simp only [attempt, h]
  unfold programRound
  rw [run_bind run_hasTokens, beq_eq_false_iff_ne.mpr hend, Bool.not_false, if_pos rfl,
    run_bind hattempt]
  rfl

/-- What a round of a program does if no diagnostic is left behind. -/
theorem programRound_clean {stmts : Array Stmt}
    {r : Round (Array Stmt) (Array Stmt)} (h : programRound stmts s = .ok r t)
    (hclean : t.errors = s.errors) :
    (s.current.kind = .endMark ∧ r = .done stmts ∧ t = s) ∨
      (s.current.kind ≠ .endMark ∧
        ((statement false s = .ok none t ∧ r = .done stmts) ∨
          ∃ stmt, statement false s = .ok (some stmt) t ∧ r = .again (stmts.push stmt))) := by
  have hs := grows_statement s
  unfold programRound at h
  rw [run_bind run_hasTokens] at h
  by_cases hend : s.current.kind = .endMark
  · rw [hend] at h
    cases h
    exact .inl ⟨hend, rfl, rfl⟩
  · rw [beq_eq_false_iff_ne.mpr hend, Bool.not_false, if_pos rfl] at h
    refine .inr ⟨hend, ?_⟩
    obtain ⟨stmt?, u, hattempt, hnext⟩ := exists_of_bind h
    unfold attempt at hattempt
    cases hrun : statement false s with
    | ok stmt? v =>
      rw [hrun] at hattempt
      cases hattempt
      cases stmt? with
      | none =>
        cases hnext
        exact .inl ⟨rfl, rfl⟩
      | some stmt =>
        cases hnext
        exact .inr ⟨stmt, rfl, rfl⟩
    | error d v =>
      rw [hrun] at hattempt hs
      cases hattempt
      -- the diagnostic that was recorded is still there
      have hrest : Grows { u with errors := u.errors ++ [d] } t := by
        have hgrows : ∀ v, Grows v ((recover >>= fun _ =>
            pure (Round.again stmts : Round _ (Array Stmt))) v).state :=
          (Follows.recover.bind (K := .total 0 []) fun _ _ _ => Follows.pure rfl).grows
        have hrecover := hgrows { u with errors := u.errors ++ [d] }
        rwa [show (recover >>= fun _ => pure _) { u with errors := u.errors ++ [d] } = .ok r t
          from hnext] at hrecover
      exact absurd ((hs.trans (Grows.record d)).clean_left hrest hclean) (hs.record_ne d)
    | fault f v =>
      rw [hrun] at hattempt
      cases hattempt

/-- A statement that was read without a diagnostic is read where other tokens stand behind it. -/
theorem Linked.statement {stmt : Stmt} (h : Linked (.front n) s t) (hlimit : s.stream.limit = n)
    (hrun : statement false s = .ok (some stmt) u) (hclean : u.errors = []) :
    ∃ v, Linked (.front n) u v ∧ Grammar.statement false t = .ok (some stmt) v := by
  have hs := grows_statement s
  rw [hrun] at hs
  -- the run on all the tokens follows the one on the front, unless it looked behind the front
  rcases ((Follows.statementAt Link.limited_front Link.deep_front false).run h).cases with
    ⟨_, _, _, v, hs', ht, rfl, huv⟩ | ⟨d, _, _, hs', -, -⟩ | hex
  · rw [hrun] at hs'
    cases hs'
    refine ⟨v, huv, ?_⟩
    rw [ht]
    exact congrArg (fun stmt => Outcome.ok (some stmt) v) (Stmt.shift_zero stmt)
  · rw [hrun] at hs'
    cases hs'
  · rw [hrun] at hex
    -- nothing behind the front was read, and no diagnostic was recorded
    rcases hex with ⟨i, hi, hhidden⟩ | ⟨d, hd, -⟩
    · have hu : u.pos ≤ u.stream.limit := hs.valid h.valid
      rw [show u.stream = s.stream from hs.stream, hlimit] at hu
      exact absurd (Nat.lt_of_lt_of_le hi hu) hhidden
    · rw [hclean] at hd
      cases hd

/-- The rounds that read a program are the first ones where other tokens stand behind it. -/
theorem run_front {stmts : Array Stmt} (rounds : Nat) :
    ∀ {s t : State} {acc : Array Stmt} {rounds' : Nat}, Linked (.front n) s t →
      s.stream.limit = n → loopFor programRound rounds acc s = .ok stmts u → u.errors = [] →
      u.pos = n → t.remaining < rounds' →
      ∃ t' rounds'', Linked (.front n) u t' ∧ Grows t t' ∧ t'.remaining < rounds'' ∧
        loopFor programRound rounds' acc t = loopFor programRound rounds'' stmts t' := by
  -- by the rounds of the shorter run; the longer one keeps more rounds than tokens
  induction rounds with
  | zero =>
    intro s t acc rounds' _ _ hrun
    cases hrun
  | succ rounds ih =>
    intro s t acc rounds' hst hlimit hrun hclean hpos hr
    obtain ⟨r, s₁, hround, hrest⟩ := exists_of_bind hrun
    -- diagnostics are never taken back, so there were none before either
    have hs₁ : s₁.errors = [] := by
      refine List.prefix_nil.mp (hclean ▸ ?_)
      cases r with
      | again acc' =>
        have hgrows := grows_programRounds rounds acc' s₁
        rw [show loopFor programRound rounds acc' s₁ = .ok stmts u from hrest] at hgrows
        exact hgrows.errors
      | done b =>
        cases hrest
        exact List.prefix_refl _
    have hs : s.errors = [] := by
      have hgrows := grows_programRound acc s
      rw [hround] at hgrows
      exact List.prefix_nil.mp (hs₁ ▸ hgrows.errors)
    rcases programRound_clean hround (hs₁.trans hs.symm) with
      ⟨hend, rfl, rfl⟩ | ⟨hend, ⟨hnone, rfl⟩ | ⟨stmt, hstmt, rfl⟩⟩
    · cases hrest
      exact ⟨t, rounds', hst, Grows.refl t, hr, rfl⟩
    · -- no statement starts before the end mark, but the cursor is at the end mark
      cases hrest
      obtain ⟨rfl, -⟩ := ((ensures_statement hst.valid false).ok hnone).2
      have hkind := u.stream.kind_limit
      rw [hlimit, ← hpos] at hkind
      exact absurd hkind hend
    · obtain ⟨t₁, hlinked, ht₁⟩ := hst.statement hlimit hstmt hs₁
      obtain ⟨hgrows, hlt, -, -⟩ := (ensures_statement hst.valid false).ok hstmt
      have hshown : s.pos < n := hlimit ▸ hst.valid.lt_limit hend
      have hend' : t.current.kind ≠ .endMark := by
        rwa [hst.kind_current hshown]
      have htt₁ := grows_statement t
      rw [ht₁] at htt₁
      obtain ⟨rounds', rfl⟩ := Nat.exists_eq_succ_of_ne_zero (Nat.ne_zero_of_lt hr)
      have hpos' : t.pos < t₁.pos := by
        rw [hst.pos, hlinked.pos]
        exact Nat.add_lt_add_right hlt _
      have hr₁ : t₁.remaining < rounds' :=
        Nat.lt_of_lt_of_le (htt₁.remaining_lt hlinked.valid' hpos') (Nat.le_of_lt_succ hr)
      obtain ⟨t', rounds'', hut', ht₁t', hr', heq⟩ := ih hlinked
        (by rw [hgrows.stream, hlimit]) hrest hclean hpos hr₁
      exact ⟨t', rounds'', hut', htt₁.trans ht₁t', hr',
        (run_loopFor_again (run_programRound hend' ht₁)).trans heq⟩

/-- A program that is read without a diagnostic ends where its rounds end, at the end mark. -/
theorem programFrom_clean {rounds : Nat} {body : List Stmt}
    (h : programFrom rounds #[] s = .ok body t) (hclean : t.errors = s.errors) :
    ∃ stmts, loopFor programRound rounds #[] s = .ok stmts t ∧ body = stmts.toList ∧
      t.current.kind = .endMark := by
  obtain ⟨stmts, u, hloop, hend⟩ := exists_of_bind h
  have hs := grows_programRounds rounds #[] s
  rw [hloop] at hs
  unfold programEnd at hend
  rw [run_bind run_current] at hend
  split at hend
  · rename_i hkind
    cases hend
    exact ⟨stmts, hloop, rfl, hkind⟩
  · cases hend
    exact absurd hclean (hs.record_ne _)

end Grammar

namespace Program

open Grammar

theorem exists_run_of_ofTokens {tokens : List Token} {p : Program} (h : ofTokens tokens = .ok p) :
    ∃ body s, programFrom ((State.ofTokens tokens).remaining + 1) #[] (.ofTokens tokens) =
      .ok body s ∧ s.errors = [] ∧ p = .ofBody body := by
  rw [ofTokens_eq] at h
  cases hrun : programFrom ((State.ofTokens tokens).remaining + 1) #[] (.ofTokens tokens) with
  | ok body s =>
    rw [hrun] at h
    simp only [ofOutcome] at h
    split at h
    · rename_i hclean
      cases h
      exact ⟨body, s, rfl, List.isEmpty_iff.mp hclean, rfl⟩
    · cases h
  | error d s =>
    rw [hrun] at h
    cases h
  | fault f s =>
    rw [hrun] at h
    cases h

/-- A program that is accepted is read in full before what stands behind it is looked at: the whole
says the statements of the program and then what the rest says, at its places. -/
theorem ofTokens_append {a b : List Token} {p : Program} (ha : ∀ token ∈ a, token.kind ≠ .endMark)
    (h : ofTokens a = .ok p) :
    (∀ q, ofTokens b = .ok q →
      ofTokens (a ++ b) = .ok (.ofBody (p.body ++ q.body.map (Stmt.shift a.length)))) ∧
    ∀ ds, ofTokens b = .error (.refused ds) →
      ofTokens (a ++ b) = .error (.refused (ds.map (Diagnostic.shift a.length))) := by
  obtain ⟨body, u, hrun, hclean, rfl⟩ := exists_run_of_ofTokens h
  obtain ⟨stmts, hloop, rfl, hend⟩ := programFrom_clean hrun hclean
  have hlimit : (State.ofTokens a).stream.limit = a.length := by
    show (TokenStream.ofTokens a).limit = a.length
    rw [TokenStream.limit_ofTokens, List.findIdx_eq_length]
    simpa using ha
  have hpos : u.pos = a.length := by
    have hgrows := grows_programRounds ((State.ofTokens a).remaining + 1) #[] (.ofTokens a)
    rw [hloop] at hgrows
    rw [← hlimit, ← hgrows.stream]
    refine Nat.le_antisymm (hgrows.valid (State.valid_ofTokens a)) (Nat.le_of_not_lt ?_)
    intro hlt
    exact TokenStream.kind_of_lt_limit hlt hend
  -- the longer run comes to the end of the first list, and what is left is a run on the second
  obtain ⟨t, rounds, hut, htt, hr, heq⟩ :=
    run_front _ (linked_front a b ha) hlimit hloop hclean hpos (Nat.lt_succ_self _)
  have hwhole : ofTokens (a ++ b) = ofOutcome (programFrom rounds stmts t) := by
    rw [ofTokens_eq, programFrom, Parse.bind_apply, heq]
    rfl
  have hlinked := linked_ofTokens ha (b := b) htt.stream (by rw [hut.pos, hpos]; rfl)
    htt.depth (htt.valid (State.valid_ofTokens _))
  have herrors : t.errors = [] := by
    rw [hut.errors, hclean]
    rfl
  have hrest : (State.ofTokens b).remaining < rounds :=
    Nat.lt_of_le_of_lt hlinked.remaining_le hr
  have hsays := ofOutcome_programFrom hlinked hrest stmts
  rw [herrors] at hsays
  rw [hwhole, body_ofBody]
  exact hsays

/-- The tokens of a block, as a statement, whose value is a function without a name: the block is
left to its value only after a function declaration was tried. -/
def trialTokens : List Token :=
  [⟨.fixed .openCurly, ⟨0, 1⟩, 0⟩, ⟨.word "compute", ⟨2, 9⟩, 0⟩, ⟨.fixed .openParen, ⟨9, 10⟩, 0⟩,
    ⟨.fixed .closeParen, ⟨10, 11⟩, 0⟩, ⟨.fixed .arrow, ⟨12, 14⟩, 0⟩, ⟨.word "x", ⟨15, 16⟩, 0⟩,
    ⟨.fixed .closeCurly, ⟨17, 18⟩, 0⟩, ⟨.fixed .semicolon, ⟨18, 19⟩, 0⟩]

/-- The tokens of `let; return;`, two statements that lack their expressions. -/
def lackingTokens : List Token :=
  [⟨.word "let", ⟨0, 3⟩, 0⟩, ⟨.fixed .semicolon, ⟨3, 4⟩, 0⟩, ⟨.word "return", ⟨5, 11⟩, 0⟩,
    ⟨.fixed .semicolon, ⟨11, 12⟩, 0⟩]

/-- The eight tokens of the block move what stands behind it by eight places. -/
theorem ofTokens_append_trial :
    (∀ token ∈ trialTokens, token.kind ≠ .endMark) ∧
    ∃ p, ofTokens trialTokens = .ok p ∧
      ofTokens (trialTokens ++ trialTokens) =
        .ok (.ofBody (p.body ++ p.body.map (Stmt.shift 8))) ∧
      ∃ ds, ofTokens lackingTokens = .error (.refused ds) ∧
        ds.map (·.span) = [.single 1, .single 3] ∧
        ofTokens (trialTokens ++ lackingTokens) =
          .error (.refused (ds.map (Diagnostic.shift 8))) := by
  have hends : ∀ token ∈ trialTokens, token.kind ≠ .endMark := by decide
  have hlength : (ofTokens trialTokens).toOption.map (·.body.length) = some 1 := by
    decide +kernel
  have hspans : (match ofTokens lackingTokens with
      | .error (.refused ds) => ds.map (·.span)
      | _ => []) = [.single 1, .single 3] := by
    decide +kernel
  refine ⟨hends, ?_⟩
  cases hrun : ofTokens trialTokens with
  | error e =>
    rw [hrun] at hlength
    cases hlength
  | ok p =>
    refine ⟨p, rfl, (ofTokens_append hends hrun).1 p hrun, ?_⟩
    rcases hrun' : ofTokens lackingTokens with (ds | f) | q
    · rw [hrun'] at hspans
      exact ⟨ds, rfl, hspans, (ofTokens_append hends hrun).2 ds hrun'⟩
    · rw [hrun'] at hspans
      cases hspans
    · rw [hrun'] at hspans
      cases hspans

end Program

end FrontEnd
