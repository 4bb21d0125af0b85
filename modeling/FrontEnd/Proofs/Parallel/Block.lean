import FrontEnd.Proofs.Parallel.Statement
import FrontEnd.Proofs.Reading.Program

/-! Blocks, and the rules at every depth, in two runs side by side. A header that was tried and left
at the end of a block starts the value of the block, and reading the value passes the whole header:
so what the trial has looked at lies inside the block. -/
namespace FrontEnd.Grammar

open Parse

variable {α : Type} {K : Link} {s t : State}

/-- Where something is not shown to both runs, they need not share any diagnostic. -/
def Link.Limited (K : Link) : Prop :=
  ∀ i d, ¬ K.shown i → K.bad d

/-- What excuses a run that may have left a header: for values with `P` it may depend on the
header. -/
def Link.Withheld (K : Link) (P : α → Prop) (a : α) (s : State) : Prop :=
  K.Beyond true a s ∨ P a ∧ K.Undecided s

/-- An expression that starts with the keyword of a function starts with its header. -/
theorem ExprAt.signatureAt {T : Nat → Lexeme} {i j : Nat} {e : Expr} {kind : FunctionKind}
    (h : ExprAt T i j e) (hkind : (T i).keyword?.bind Keyword.functionKind? = some kind) :
    ∃ k name params, SignatureAt T i k kind name params ∧ k ≤ j := by
  obtain ⟨keyword, hkey, hfunction⟩ := Option.bind_eq_some_iff.mp hkind
  have hword := Lexeme.kind_eq_word_of_keyword? hkey
  have hname : ∀ {x}, ¬ NameAt T i x := fun hx => by simp [hx.2.1] at hkey
  have kind_unique : ∀ {k kind' name params}, SignatureAt T i k kind' name params →
      SignatureAt T i k kind name params := by
    intro k kind' name params hheader
    obtain ⟨hkind', -⟩ := id hheader
    rwa [Option.some.inj (hkind.symm.trans hkind')]
  -- nothing but a function expression starts with such a keyword
  obtain ⟨hu, hlinks, -, -⟩ := h
  cases hu with
  | before hop _ => simp [Operation.unary?, hword] at hop
  | called hcallee hcalls =>
    have hle := Nat.le_trans hcalls.le hlinks.le
    cases hcallee with
    | literal h => simp [LiteralKind.ofLexeme?, hword] at h
    | path h => exact (hname h).elim
    | call h => exact (hname h).elim
    | ident h => exact (hname h).elim
    | unit hopen => simp [hword] at hopen
    | grouping hopen => simp [hword] at hopen
    | tuple hopen => simp [hword] at hopen
    | block h =>
      obtain ⟨hopen⟩ := h
      simp [hword] at hopen
    | compute hheader hbody => exact ⟨_, _, _, kind_unique hheader, by have := hbody.lt; omega⟩
    | action hheader hbody => exact ⟨_, _, _, kind_unique hheader, by have := hbody.lt; omega⟩

/-- Where a function header does not fit, it ends with its arrow. -/
theorem run_declarationHeader_pos {d : Diagnostic} (hs : s.Valid)
    (h : declarationHeader s = .error d t) {kind : FunctionKind} {name : Option Ident}
    {params : List Ident} {k : Nat} (hat : SignatureAt s.lexeme s.pos k kind name params) :
    t.pos = k := by
  unfold declarationHeader at h
  rw [run_bind (run_signature hs hat).1] at h
  cases name with
  | none =>
    cases h
    rfl
  | some name =>
    simp only [run_bind run_current] at h
    split at h
    · cases h
    · cases kind <;> (cases h; rfl)

/-- A header is only read behind the keyword of a function. -/
theorem run_signature_fault (h : s.current.keyword?.bind Keyword.functionKind? = none) :
    ∃ f u, signature s = .fault f u := by
  obtain ⟨u, hadvance⟩ : ∃ u, advance s = .ok s.current u := by
    unfold advance
    split <;> exact ⟨_, rfl⟩
  refine ⟨.notAFunction s.current.text, u, ?_⟩
  unfold signature
  rw [run_bind hadvance]
  simp only [h]
  rfl

theorem functionKind_of_declarationHeader {d : Diagnostic} (h : declarationHeader s = .error d t) :
    ∃ kind, (s.lexeme s.pos).keyword?.bind Keyword.functionKind? = some kind := by
  rw [← Option.ne_none_iff_exists']
  intro hnone
  obtain ⟨f, u, hsignature⟩ := run_signature_fault (s := s) hnone
  unfold declarationHeader at h
  rw [bind_apply, hsignature] at h
  cases h

/-- Reading the value of the block looks at all that the header has looked at. -/
theorem Link.Undecided.blockTail {g : Level} (hg : g.Sound) (hlimited : K.Limited) (hs : s.Valid)
    (h : K.Undecided s) : K.Excused (K.Beyond true) (g.blockTail none s) := by
  obtain ⟨d, u, hheader, hhidden⟩ := h
  obtain ⟨kind, hkind⟩ := functionKind_of_declarationHeader hheader
  have hread : Ensures (g.blockTail none) s (ExprRead s) := hg.expression hs
  cases hrun : g.blockTail none s with
  | error d t => exact .inl (hlimited u.pos d hhidden)
  | fault f t => trivial
  | ok e? t =>
    obtain ⟨hst, he⟩ := hread.ok hrun
    cases e? with
    | none =>
      obtain ⟨keyword, hkey, -⟩ := Option.bind_eq_some_iff.mp hkind
      exact absurd (.inr (.inl (Lexeme.kind_eq_word_of_keyword? hkey))) he.2
    | some e =>
      -- without a diagnostic an expression was read, and with it the whole header
      by_cases hclean : t.errors = s.errors
      · obtain ⟨k, name, params, hat, hle⟩ := (he.2 hclean).signatureAt hkind
        rw [← run_declarationHeader_pos hs hheader hat] at hle
        exact .inl ⟨u.pos, Nat.lt_succ_of_le hle, hhidden⟩
      · obtain ⟨more, hmore⟩ := hst.errors
        obtain ⟨d', hd'⟩ : ∃ d', d' ∈ more := by
          refine List.exists_mem_of_ne_nil more ?_
          rintro rfl
          exact hclean (by rw [← hmore, List.append_nil])
        exact .inr ⟨d', by rw [← hmore]; exact List.mem_append_right _ hd',
          hlimited u.pos d' hhidden⟩

namespace Follows

variable {g h : Level} (hg : g.Parallel K h) (hsound : g.Sound) (hlimited : K.Limited)

include hg

theorem blockTail (found : Option Expr) :
    Follows K (K.Beyond true) (g.blockTail found)
      (h.blockTail (Shift.shift K.offset found)) := by
  cases found with
  | some value => exact pure rfl
  | none => exact expression hg

include hsound

theorem blockPart : Follows K (K.Withheld (· = .nothing)) g.blockPart h.blockPart := by
  refine current.bindTo (fun _ _ => .inl) ?_
  rintro token _ ⟨span, rfl⟩
  dsimp only
  cases token.keyword? with
  | some keyword =>
    refine (statement hg hsound true).bindWith ?_ ?_
    · rintro (_ | stmt) _ rfl
      · exact pure rfl
      · exact pure rfl
    · rintro (_ | stmt) s _ _ hunsure
      · exact .inl (hunsure.imp id fun h => ⟨rfl, h.2⟩)
      · exact .inl (.inl (Link.Beyond.ahead hunsure))
  | none =>
    refine (position (E := K.Beyond true)).bindTo (fun _ _ => .inl) ?_
    rintro start _ rfl
    refine (expression hg).bindTo (fun _ _ => .inl) ?_
    rintro (_ | e) _ rfl
    · exact pure rfl
    · refine (isAt .semicolon).bindTo (fun _ _ => .inl) ?_
      rintro here _ rfl
      refine ite ?_ (pure rfl)
      refine (Closes.expressionStatement e start).looking.mapWith ?_ fun _ _ => .inl
      exact fun _ _ h => congrArg BlockPart.stmt h

include hlimited

theorem blockRound (stmts : Array Stmt) :
    Follows K (K.Withheld fun r => ∃ stmts, r = .done (stmts, none)) (g.blockRound stmts)
      (h.blockRound (Shift.shift K.offset stmts)) := by
  refine current.bindTo (fun _ _ => .inl) ?_
  rintro token _ ⟨span, rfl⟩
  refine ite (pure rfl) ?_
  refine (blockPart hg hsound).attempt.bindWith ?_ ?_
  · rintro (d | part) _ rfl
    · exact (resume d stmts).mono fun _ _ => .inl
    · cases part with
      | stmt stmt =>
        have hpush := (Shift.shift_push K.offset stmts stmt).symm
        show Follows K _ (if stmt.allowedInBlock = true then _ else _)
          (if (stmt.shift K.offset).allowedInBlock = true then _ else _)
        rw [stmt.allowedInBlock_shift, stmt.kind_shift, stmt.span_shift]
        refine ite (pure (congrArg Round.again hpush)) ?_
        refine (record ⟨.notAllowedInBlock stmt.kind, stmt.span⟩).bindTo (fun _ _ => .inl) ?_
        intro _ _ _
        exact pure rfl
      | tail value => exact pure rfl
      | nothing => exact pure rfl
  · rintro (d | part) s _ hgrows hex
    · refine .record (hex.elim id (hlimited _ d)) ?_
      exact (recover.bind (K := K) fun _ _ _ => pure rfl).grows
    · rcases hex with hbeyond | ⟨rfl, hundecided⟩
      · exact (Link.Excused.of_beyond hbeyond hgrows).mono fun _ _ => .inl
      · exact .inl (.inr ⟨⟨stmts, rfl⟩, hundecided⟩)

end Follows

namespace Level

/-- The end of a block behind its value. -/
def blockClose (start : Nat) (stmts : Array Stmt) (tail : Option Expr) : Parse Block := do
  let _ ← expect .closeCurly "`\x7d`"
  let span ← rangeFrom start
  pure ⟨stmts.toList, tail, span⟩

end Level

namespace Closes

theorem blockClose (start : Nat) (stmts : Array Stmt) (tail : Option Expr) :
    Closes K (Level.blockClose start stmts tail)
      (Level.blockClose (start + K.offset) (Shift.shift K.offset stmts)
        (Shift.shift K.offset tail)) := by
  refine (expect (by decide) _).andThen ?_
  intro _ _ _
  refine (Follows.rangeFrom start).bind ?_
  rintro span _ rfl
  refine Follows.pure ?_
  show _ = Block.shift K.offset ⟨stmts.toList, tail, span⟩
  rw [Block.shift, Tree.shiftStmts_eq_map, Tree.shiftTail_eq_map, ← Array.toList_map]
  rfl

variable {g h : Level} (hg : g.Parallel K h) (hsound : g.Sound) (hlimited : K.Limited)

include hg hsound hlimited

theorem blockBody : Closes K g.blockBody h.blockBody := by
  refine (Follows.expect (by decide) _).close ?_
  rintro opening _ ⟨span, rfl⟩
  have hloop : Follows K (K.Withheld fun r : Array Stmt × Option Expr => r.2 = none)
      (loop g.blockRound #[]) (loop h.blockRound #[]) := by
    refine Follows.collectWith (Follows.blockRound hg hsound hlimited) ?_ ?_ fun _ _ => .inl
    · rintro stmts s (hbeyond | ⟨⟨_, hno⟩, -⟩)
      · exact hbeyond
      · cases hno
    · rintro found s (hbeyond | ⟨⟨_, hdone⟩, hundecided⟩)
      · exact .inl hbeyond
      · cases hdone
        exact .inr ⟨rfl, hundecided⟩
  have hrest : ∀ stmts found,
      Closes K (g.blockTail found >>= Level.blockClose opening.index stmts)
        (h.blockTail (Shift.shift K.offset found) >>=
          Level.blockClose (opening.index + K.offset) (Shift.shift K.offset stmts)) := by
    intro stmts found
    refine (Follows.blockTail hg found).close ?_
    rintro tail _ rfl
    exact blockClose opening.index stmts tail
  refine hloop.closeWith ?_ ?_
  · rintro ⟨stmts, found⟩ _ rfl
    exact hrest stmts found
  · rintro ⟨stmts, found⟩ s hs _ (hbeyond | ⟨rfl, hundecided⟩)
    · exact (hrest stmts found).excused hbeyond.not_shown
    · have hclose : ∀ tail, Closes K (Level.blockClose opening.index stmts tail) _ :=
        blockClose opening.index stmts
      refine (hundecided.blockTail hsound hlimited hs).bind ?_ ?_
      · exact fun tail u => (hclose tail).follows.grows u
      · exact fun tail u _ hbeyond => (hclose tail).excused hbeyond.not_shown

end Closes

/-- A rule that stops for want of levels. -/
theorem Closes.tooDeep [Moves α] {q : Parse α}
    (h : q = tooDeep ∨ ∀ r, K.bad ⟨.nestingTooDeep maxDepth, r⟩) : Closes K tooDeep q where
  follows := by
    rcases h with rfl | hbad
    · exact Follows.tooDeep
    · exact ⟨Grows.refl, fun _ => .excused (.inl (hbad _))⟩
  passes hrun := by cases hrun

namespace Level.Parallel

variable {g h : Level}

theorem closed (hdeep : h = .closed ∨ ∀ r, K.bad ⟨.nestingTooDeep maxDepth, r⟩) :
    Level.closed.Parallel K h where
  unary := (Closes.tooDeep (hdeep.imp_left (congrArg Level.unary))).looking
  binary _ _ := (Closes.tooDeep (hdeep.imp_left fun h => h ▸ rfl)).looking
  block := Closes.tooDeep (hdeep.imp_left (congrArg Level.block))
  path _ _ := (Closes.tooDeep (hdeep.imp_left fun h => h ▸ rfl)).looking

theorem above (hg : g.Parallel K h) (hsound : g.Sound) (hlimited : K.Limited) (hdeep : K.Deep) :
    g.above.Parallel K h.above where
  unary := (Follows.operand hg).nested (fun _ _ _ h => h) hdeep
  binary left least := (Follows.binaryChain hg left least).nested (fun _ _ _ h => h) hdeep
  block := (Closes.blockBody hg hsound hlimited).nested hdeep
  path segment place := (Follows.pathFrom hg segment place).nested (fun _ _ _ h => h) hdeep

/-- Where the first run has fewer levels left, it need not share a want of them. -/
theorem withRoom (hlimited : K.Limited) (hdeep : K.Deep) {room : Nat} :
    ∀ {room' : Nat}, room ≤ room' → (K.deeper = 0 → room = room') →
      (Level.withRoom room).Parallel K (Level.withRoom room') := by
  induction room with
  | zero =>
    intro room' _ heq
    refine closed (hdeep.imp_left fun hzero => ?_)
    rw [← heq hzero]
    rfl
  | succ room ih =>
    rintro (_ | room') hle heq
    · exact absurd hle (Nat.not_succ_le_zero _)
    · exact (ih (Nat.le_of_succ_le_succ hle) fun hzero => Nat.succ.inj (heq hzero)).above
        (withRoom_sound room) hlimited hdeep

end Level.Parallel

theorem Follows.atDepth [Moves α] {E : α → State → Prop} {rule : Level → Parse α}
    (h : ∀ room room', room ≤ room' → (K.deeper = 0 → room = room') →
      Follows K E (rule (.withRoom room)) (rule (.withRoom room'))) :
    Follows K E (atDepth rule) (atDepth rule) where
  grows s := (h _ _ (Nat.le_refl _) fun _ => rfl).grows s
  run {s t} hst := by
    have hdepth := hst.depth
    exact (h (maxDepth - s.depth) (maxDepth - t.depth) (by omega) (by omega)).run hst

end FrontEnd.Grammar
