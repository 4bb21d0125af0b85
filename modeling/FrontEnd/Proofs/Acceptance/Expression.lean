import FrontEnd.Proofs.Acceptance.Climbing
import FrontEnd.Proofs.Extent

/-! The rules for expressions read every expression that stands in the tokens, given the rules that
open a level. -/
namespace FrontEnd.Grammar

open Parse

/-- The rules of the level read what stands in the tokens, or a diagnostic is `bad`. -/
structure Level.Complete (bad : Diagnostic → Prop) (g : Level) : Prop where
  absent : ∀ {s : State}, s.Valid → ¬ StartsExpr (s.lexeme s.pos) → Achieves bad g.unary s none s
  unary : ∀ {s : State} {j : Nat} {u : Expr}, s.Valid → OperandAt s.lexeme s.pos j u →
    Achieves bad g.unary s (some u) (s.moveTo j)
  binary : ∀ {s : State} {j least : Nat} {left e : Expr} {links : Links}, s.Valid →
    LinksAt s.lexeme s.pos j links → Grouped left links e → (∀ l ∈ links, least ≤ l.1.level) →
    Stops (s.moveTo j) least → Achieves bad (g.binary left least) s e (s.moveTo j)
  block : ∀ {s : State} {j : Nat} {b : Block}, s.Valid → BlockAt s.lexeme s.pos j b →
    Achieves bad g.block s b (s.moveTo j)
  path : ∀ {s : State} {j : Nat} {segment : Ident} {place : PathPlace} {p : Path}, s.Valid →
    PathAt s.lexeme place segment s.pos j p →
    Achieves bad (g.path segment place) s p (s.moveTo j)

/-- A token of a given kind that is no end mark can be passed. -/
theorem State.Valid.pass {s : State} {i : Nat} {kind : TokenKind} (h : (s.moveTo i).Valid)
    (hk : (s.lexeme i).kind = kind) (hne : kind ≠ .endMark) : (s.moveTo (i + 1)).Valid :=
  State.Valid.next h (hk ▸ hne)

/-- What an expression without operators starts with is no operator. -/
theorem PrimaryAt.unary?_eq_none {T : Nat → Lexeme} {i j : Nat} {e : Expr}
    (h : PrimaryAt T i j e) : Operation.unary? (T i) = none := by
  have hword : (T i).kind = .word → Operation.unary? (T i) = none := by
    intro hk
    simp [Operation.unary?, hk]
  have hparen : (T i).kind = .openParen → Operation.unary? (T i) = none := by
    intro hk
    simp [Operation.unary?, hk]
  cases h with
  | literal h =>
    unfold LiteralKind.ofLexeme? at h
    unfold Operation.unary?
    split at h <;> simp_all
  | path hx _ _ => exact hword hx.1
  | call hx _ => exact hword hx.1
  | ident hx _ _ => exact hword hx.1
  | unit hopen _ => exact hparen hopen
  | grouping hopen _ _ => exact hparen hopen
  | tuple hopen _ _ _ => exact hparen hopen
  | block hb =>
    simp [Operation.unary?, hb.openCurly]
  | compute hheader _ => exact hword hheader.kind_eq_word
  | action hheader _ _ => exact hword hheader.kind_eq_word

variable {bad : Diagnostic → Prop} {s : State} {j : Nat}

namespace Level

variable {g : Level} [g.Keeps]

theorem Complete.expression (hg : g.Complete bad) (hs : s.Valid) {e : Expr}
    (h : ExprAt s.lexeme s.pos j e) : Achieves bad g.expression s (some e) (s.moveTo j) := by
  obtain ⟨hu, hlinks, hgroup, hend⟩ := h
  unfold Level.expression
  refine (hg.unary hs hu).bind ?_ (by rintro (_ | u) <;> infer_instance)
  intro hk
  refine (hg.binary hk hlinks hgroup (fun _ _ => Nat.zero_le _) ?_).map
  intro level associativity hpower
  have hnone : (s.lexeme j).bindingPower? = some (level, associativity) := hpower
  rw [hend] at hnone
  cases hnone

theorem Complete.expression_absent (hg : g.Complete bad) (hs : s.Valid)
    (h : ¬ StartsExpr (s.lexeme s.pos)) : Achieves bad g.expression s none s := by
  unfold Level.expression
  exact (hg.absent hs h).bind Achieves.pure (by rintro (_ | u) <;> infer_instance)

theorem Complete.requiredExpression (hg : g.Complete bad) (hs : s.Valid) {e : Expr}
    (h : ExprAt s.lexeme s.pos j e) (context : String) :
    Achieves bad (g.requiredExpression context) s e (s.moveTo j) := by
  unfold Level.requiredExpression
  exact (hg.expression hs h).bind Achieves.pure (by rintro (_ | e) <;> infer_instance)

theorem not_startsExpr_of_closeParen {lexeme : Lexeme} (h : lexeme.kind = .closeParen) :
    ¬ StartsExpr lexeme := by
  unfold StartsExpr LiteralKind.ofLexeme? Operation.unary?
  simp [h]

/-- What follows an expression of a list: a comma and further expressions, or the end. -/
theorem Complete.listStep (hg : g.Complete bad) (hs : s.Valid) {k : Nat} {e : Expr}
    (he : ExprAt s.lexeme s.pos k e) (acc : Array Expr) :
    ((s.lexeme k).kind = .comma →
      Achieves bad (g.elementRound acc) s (.again (acc.push e)) (s.moveTo (k + 1))) ∧
    ((s.lexeme k).kind = .closeParen →
      Achieves bad (g.elementRound acc) s (.done (acc.push e)) (s.moveTo k)) := by
  unfold Level.elementRound
  refine ⟨?_, ?_⟩
  · intro hcomma
    refine (hg.expression hs he).bind ?_ (by rintro (_ | e) <;> infer_instance)
    intro hk
    refine Achieves.step (run_accept_some (by decide) hcomma) ?_
    exact Achieves.pure (hk.pass hcomma (by decide))
  · intro hclose
    refine (hg.expression hs he).bind ?_ (by rintro (_ | e) <;> infer_instance)
    intro hk
    have hcomma : (s.moveTo k).current.kind ≠ .comma := by
      show (s.lexeme k).kind ≠ .comma
      rw [hclose]
      decide
    exact Achieves.step (run_accept_none hcomma) (Achieves.pure hk)

omit [g.Keeps] in
/-- Where no list ends, a round over arguments is one over elements. -/
theorem run_argumentRound (h : s.current.kind ≠ .closeParen) (acc : Array Expr) :
    g.argumentRound acc s = g.elementRound acc s := by
  unfold argumentRound
  rw [run_bind (run_isAt_false h)]
  rfl

/-- A list of expressions is read to its end by rounds that read an expression each. -/
theorem Complete.listRounds (hg : g.Complete bad)
    {round : Array Expr → Parse (Round (Array Expr) (Array Expr))}
    (hkeeps : ∀ acc, Grammar.Keeps (round acc))
    (hnil : ∀ {s : State} (acc : Array Expr), s.Valid → s.current.kind = .closeParen →
      Achieves bad (round acc) s (.done acc) s)
    (hround : ∀ {s : State} (acc : Array Expr), s.current.kind ≠ .closeParen →
      round acc s = g.elementRound acc s) (es : List Expr) :
    ∀ {s : State} (acc : Array Expr) {rounds : Nat}, s.Valid → ExprsAt s.lexeme s.pos j es →
      s.remaining < rounds →
      Achieves bad (loopFor round rounds acc) s (acc ++ es.toArray) (s.moveTo j) := by
  -- one round for each element that is still to be read
  induction es with
  | nil =>
    intro s acc rounds hs h hr
    obtain ⟨rounds, rfl⟩ := Nat.exists_eq_succ_of_ne_zero (Nat.ne_zero_of_lt hr)
    cases h with
    | nil hclose =>
      rw [State.moveTo_self, Array.append_empty]
      exact Achieves.done (hnil acc hs hclose) hkeeps
  | cons e es ih =>
    intro s acc rounds hs h hr
    obtain ⟨rounds, rfl⟩ := Nat.exists_eq_succ_of_ne_zero (Nat.ne_zero_of_lt hr)
    have hstart : StartsExpr (s.lexeme s.pos) := by
      cases h with
      | last he _ => exact he.startsExpr
      | cons he _ _ => exact he.startsExpr
    have hopen : s.current.kind ≠ .closeParen := fun hk =>
      not_startsExpr_of_closeParen hk hstart
    have hend : s.current.kind ≠ .endMark := fun hk => not_startsExpr (.inr hk) hstart
    cases h with
    | last he hclose =>
      have hstep : Achieves bad (round acc) s (.done (acc.push e)) (s.moveTo j) := by
        unfold Achieves
        rw [hround acc hopen]
        exact (hg.listStep hs he acc).2 hclose
      have hdone : Achieves bad (loopFor round (rounds + 1) acc) s (acc.push e) (s.moveTo j) :=
        hstep.done hkeeps
      simpa using hdone
    | @cons _ k _ _ _ he hcomma hes =>
      have hstep : Achieves bad (round acc) s (.again (acc.push e)) (s.moveTo (k + 1)) := by
        unfold Achieves
        rw [hround acc hopen]
        exact (hg.listStep hs he acc).1 hcomma
      refine hstep.again ?_ hkeeps
      intro hk
      have hlt : s.pos < k + 1 := Nat.lt_succ_of_lt he.lt
      have hrest := ih (s := s.moveTo (k + 1)) (acc.push e) hk hes
        (remaining_moveTo_lt hs hend hr hlt)
      simpa using hrest

theorem Complete.arguments (hg : g.Complete bad) (hs : s.Valid) {args : List Expr}
    (h : ArgumentsAt s.lexeme s.pos j args) :
    Achieves bad g.arguments s args (s.moveTo j) := by
  obtain ⟨hopen, hargs⟩ := h
  rename_i j
  have hopen' : s.current.kind = .openParen := hopen
  have hnext : s.next.Valid := hs.next (by rw [hopen']; decide)
  have hnil : ∀ {s : State} (acc : Array Expr), s.Valid → s.current.kind = .closeParen →
      Achieves bad (g.argumentRound acc) s (.done acc) s := by
    intro s acc hs hclose
    unfold Level.argumentRound
    refine Achieves.step (run_isAt_true hclose) ?_
    exact Achieves.pure hs
  have hloop : Achieves bad (loop g.argumentRound #[]) s.next args.toArray (s.moveTo j) := by
    have hrounds := hg.listRounds inferInstance hnil
      (fun acc h => run_argumentRound h acc) args #[] hnext hargs (Nat.lt_succ_self _)
    rw [Array.empty_append] at hrounds
    exact hrounds
  unfold Level.arguments
  refine Achieves.step (run_expect (by decide) hopen' _) ?_
  refine hloop.bind ?_ inferInstance
  intro hj
  have hclose : (s.moveTo j).current.kind = .closeParen := hargs.closeParen
  refine Achieves.step (run_expect (by decide) hclose _) ?_
  have hdone : (s.moveTo (j + 1)).Valid := hj.pass hclose (by decide)
  simpa using Achieves.pure hdone

instance keeps_behindOpening (start : Nat) (first? : Option Expr) :
    Grammar.Keeps (match first? with
      | some first => g.parenthesizedFrom start first
      | none => accept .closeParen >>= fun token? => match token? with
        | some _ => rangeFrom start >>= fun span => pure (.tuple [] span)
        | none => missingExpression "inside parentheses") := by
  cases first? with
  | some first => infer_instance
  | none =>
    refine @Keeps.bind _ _ _ _ _ fun token? => ?_
    cases token? <;> infer_instance

theorem Complete.unit (hg : g.Complete bad) (hs : s.Valid)
    (hopen : (s.lexeme s.pos).kind = .openParen)
    (hclose : (s.lexeme (s.pos + 1)).kind = .closeParen) :
    Achieves bad g.parenthesized s (.tuple [] (.clamped s.pos (s.pos + 2)))
      (s.moveTo (s.pos + 2)) := by
  have hnext : (s.moveTo (s.pos + 1)).Valid := State.Valid.pass hs hopen (by decide)
  have hclose' : (s.moveTo (s.pos + 1)).current.kind = .closeParen := hclose
  unfold Level.parenthesized
  refine Achieves.step (run_advance (hopen ▸ by decide)) ?_
  refine (hg.expression_absent hnext (not_startsExpr_of_closeParen hclose)).bind ?_
    (g.keeps_behindOpening _)
  intro _
  refine Achieves.step (run_accept_some (by decide) hclose') ?_
  rw [hs.index_current]
  exact Achieves.step rfl (Achieves.pure (hnext.pass hclose (by decide)))

theorem Complete.grouping (hg : g.Complete bad) (hs : s.Valid) {e : Expr}
    (hopen : (s.lexeme s.pos).kind = .openParen) (he : ExprAt s.lexeme (s.pos + 1) j e)
    (hclose : (s.lexeme j).kind = .closeParen) :
    Achieves bad g.parenthesized s e (s.moveTo (j + 1)) := by
  have hnext : (s.moveTo (s.pos + 1)).Valid := State.Valid.pass hs hopen (by decide)
  unfold Level.parenthesized
  refine Achieves.step (run_advance (hopen ▸ by decide)) ?_
  refine (hg.expression hnext he).bind ?_ (g.keeps_behindOpening _)
  intro hj
  have hclose' : (s.moveTo j).current.kind = .closeParen := hclose
  refine Achieves.step (run_accept_none fun hk => absurd (hclose'.symm.trans hk) (by decide)) ?_
  exact Achieves.step (run_expect (by decide) hclose' _)
    (Achieves.pure (hj.pass hclose (by decide)))

theorem Complete.tuple (hg : g.Complete bad) (hs : s.Valid) {k : Nat} {e : Expr}
    {es : List Expr} (hopen : (s.lexeme s.pos).kind = .openParen)
    (he : ExprAt s.lexeme (s.pos + 1) k e) (hcomma : (s.lexeme k).kind = .comma)
    (hes : ExprsAt s.lexeme (k + 1) j es) :
    Achieves bad g.parenthesized s (.tuple (e :: es) (.clamped s.pos (j + 1)))
      (s.moveTo (j + 1)) := by
  have hnext : (s.moveTo (s.pos + 1)).Valid := State.Valid.pass hs hopen (by decide)
  -- a trailing comma: no expression follows, and the loop ends there
  have hnil : ∀ {s : State} (acc : Array Expr), s.Valid → s.current.kind = .closeParen →
      Achieves bad (g.elementRound acc) s (.done acc) s := by
    intro s acc hs hclose
    unfold Level.elementRound
    refine (hg.expression_absent hs (not_startsExpr_of_closeParen hclose)).bind Achieves.pure ?_
    rintro (_ | e) <;> infer_instance
  unfold Level.parenthesized
  refine Achieves.step (run_advance (hopen ▸ by decide)) ?_
  refine (hg.expression hnext he).bind ?_ (g.keeps_behindOpening _)
  intro hk
  have hcomma' : (s.moveTo k).current.kind = .comma := hcomma
  have hk₁ : (s.moveTo (k + 1)).Valid := hk.pass hcomma (by decide)
  refine Achieves.step (run_accept_some (by decide) hcomma') ?_
  have hloop := hg.listRounds inferInstance hnil (fun _ _ => rfl) es #[e] hk₁ hes
    (Nat.lt_succ_self _)
  refine Achieves.bind hloop ?_ inferInstance
  intro hj
  have hclose : (s.moveTo j).current.kind = .closeParen := hes.closeParen
  have hdone : (s.moveTo (j + 1)).Valid := hj.pass hclose (by decide)
  refine Achieves.step (run_expect (by decide) hclose _) ?_
  rw [hs.index_current]
  refine Achieves.step rfl ?_
  simpa using Achieves.pure hdone

theorem Complete.compute (hg : g.Complete bad) (hs : s.Valid) {k : Nat} {name : Option Ident}
    {params : List Ident} {body : Expr}
    (hheader : SignatureAt s.lexeme s.pos k .compute name params)
    (hbody : ExprAt s.lexeme k j body) :
    Achieves bad g.function s (.function .compute name params body ⟨s.pos, body.span.stop⟩)
      (s.moveTo j) := by
  obtain ⟨hrun, hk⟩ := run_signature hs hheader
  unfold Level.function
  refine Achieves.step hrun ?_
  refine (hg.requiredExpression hk hbody _).bind ?_ inferInstance
  intro hj
  have hspan : s.pos ≤ body.span.stop := by
    obtain ⟨h₁, h₂, -⟩ := hbody.within
    have := hheader.lt
    omega
  exact Achieves.step (run_rangeBetween hspan) (Achieves.pure hj)

omit [g.Keeps] in
theorem Complete.action (hg : g.Complete bad) (hs : s.Valid) {k : Nat} {name : Option Ident}
    {params : List Ident} {body : Block}
    (hheader : SignatureAt s.lexeme s.pos k .action name params)
    (hbody : BlockAt s.lexeme k j body) (htail : body.tail = none) :
    Achieves bad g.function s
      (.function .action name params (.block body) ⟨s.pos, body.span.stop⟩) (s.moveTo j) := by
  obtain ⟨hrun, hk⟩ := run_signature hs hheader
  have hopen : (s.moveTo k).current.kind = .openCurly := hbody.openCurly
  have hblock : Achieves bad (g.functionBody .action) (s.moveTo k) (.block body) (s.moveTo j) := by
    unfold Level.functionBody
    refine Achieves.step (run_isAt_true hopen) ?_
    refine (hg.block hk hbody).bind ?_ inferInstance
    intro hj
    have hno : body.hasTail = false := by
      rw [Block.hasTail, htail]
      rfl
    simp only [hno]
    exact Achieves.pure hj
  unfold Level.function
  refine Achieves.step hrun ?_
  refine hblock.bind ?_ inferInstance
  intro hj
  have hspan : s.pos ≤ body.span.stop := by
    have := hheader.lt
    have := hbody.lt
    rw [hbody.span_eq]
    show s.pos ≤ j
    omega
  exact Achieves.step (run_rangeBetween hspan) (Achieves.pure hj)

theorem Complete.named (hg : g.Complete bad) (hs : s.Valid) {x : Ident}
    (hx : NameAt s.lexeme s.pos x) :
    (∀ {j : Nat} {p : Path}, (s.lexeme (s.pos + 1)).kind = .doubleColon →
      PathAt s.lexeme .expression x (s.pos + 2) j p →
      Achieves bad (g.named s.current) s (.path p) (s.moveTo j)) ∧
    (∀ {j : Nat} {args : List Expr}, ArgumentsAt s.lexeme (s.pos + 1) j args →
      Achieves bad (g.named s.current) s (.call x args (.clamped s.pos j)) (s.moveTo j)) ∧
    ((s.lexeme (s.pos + 1)).kind ≠ .doubleColon → (s.lexeme (s.pos + 1)).kind ≠ .openParen →
      Achieves bad (g.named s.current) s (.ident x) (s.moveTo (s.pos + 1))) := by
  have hend : s.current.kind ≠ .endMark := hx.kind_ne_endMark
  have hnext : (s.moveTo (s.pos + 1)).Valid := hs.next hend
  -- the word is no keyword, so it is kept as it is
  have hident : Ident.ofToken s.current = x := by
    have hkey : s.current.keyword? = none := hx.2.1
    rw [hx.2.2]
    simp only [Ident.ofToken, hkey, hs.index_current]
    rfl
  unfold Level.named
  refine ⟨?_, ?_, ?_⟩
  · intro j p hcolon hpath
    refine Achieves.step (run_advance hend) ?_
    rw [hident]
    refine Achieves.step (run_accept_some (s := s.next) (by decide) hcolon) ?_
    exact (hg.path (hnext.pass hcolon (by decide)) hpath).map
  · intro j args hargs
    have hopen : s.next.current.kind = .openParen := hargs.openParen
    refine Achieves.step (run_advance hend) ?_
    rw [hident]
    refine Achieves.step (run_accept_none fun hk => absurd (hopen.symm.trans hk) (by decide)) ?_
    refine Achieves.step (run_isAt_true hopen) ?_
    rw [hs.index_current]
    refine (hg.arguments hnext hargs).bind ?_ inferInstance
    intro hj
    exact Achieves.step rfl (Achieves.pure hj)
  · intro hcolon hopen
    refine Achieves.step (run_advance hend) ?_
    rw [hident]
    refine Achieves.step (run_accept_none (s := s.next) hcolon) ?_
    refine Achieves.step (run_isAt_false (show s.next.current.kind ≠ .openParen from hopen)) ?_
    exact Achieves.pure hnext

section

omit [g.Keeps]

theorem literalKind_eq_none {lexeme : Lexeme} {kind : TokenKind} (h : lexeme.kind = kind)
    (hkind : kind ∈ [TokenKind.word, .openParen, .openCurly]) :
    LiteralKind.ofLexeme? lexeme = none := by
  unfold LiteralKind.ofLexeme?
  simp only [List.mem_cons, List.not_mem_nil, or_false] at hkind
  rcases hkind with rfl | rfl | rfl <;> simp [h]

theorem run_primary_literal (hs : s.Valid) {kind : LiteralKind}
    (h : LiteralKind.ofLexeme? (s.lexeme s.pos) = some kind) :
    g.primary s = .ok (some (.literal ⟨kind, (s.lexeme s.pos).value, .single s.pos⟩)) s.next ∧
      s.next.Valid := by
  have h' : LiteralKind.ofLexeme? s.current.toLexeme = some kind := h
  have hend : s.current.kind ≠ .endMark := by
    intro hk
    simp [LiteralKind.ofLexeme?, hk] at h'
  refine ⟨?_, hs.next hend⟩
  unfold primary
  rw [run_bind run_current]
  simp only [h']
  rw [run_bind (run_advance hend), hs.index_current]
  rfl

theorem run_primary_name {x : Ident} (h : NameAt s.lexeme s.pos x) :
    g.primary s = (some <$> g.named s.current : Parse (Option Expr)) s := by
  have hword : s.current.kind = .word := h.1
  have hkey : s.current.keyword? = none := h.2.1
  unfold primary
  rw [run_bind run_current]
  simp only [literalKind_eq_none hword (by simp), hword, hkey]

theorem run_primary_function {kind : FunctionKind}
    (h : (s.lexeme s.pos).keyword?.bind Keyword.functionKind? = some kind) :
    g.primary s = (some <$> g.function : Parse (Option Expr)) s := by
  obtain ⟨keyword, hkey, hkind⟩ := Option.bind_eq_some_iff.mp h
  have hkey' : s.current.keyword? = some keyword := hkey
  have hword : s.current.kind = .word := Lexeme.kind_eq_word_of_keyword? hkey
  unfold primary
  rw [run_bind run_current]
  simp only [literalKind_eq_none hword (by simp), hword, hkey', keywordExpression, hkind]

theorem run_primary_parenthesized (h : (s.lexeme s.pos).kind = .openParen) :
    g.primary s = (some <$> g.parenthesized : Parse (Option Expr)) s := by
  have hopen : s.current.kind = .openParen := h
  unfold primary
  rw [run_bind run_current]
  simp only [literalKind_eq_none hopen (by simp), hopen]

theorem run_primary_block (h : (s.lexeme s.pos).kind = .openCurly) :
    g.primary s = (g.block >>= fun b => pure (some (.block b)) : Parse (Option Expr)) s := by
  have hopen : s.current.kind = .openCurly := h
  unfold primary
  rw [run_bind run_current]
  simp only [literalKind_eq_none hopen (by simp), hopen]

end

theorem Complete.primary (hg : g.Complete bad) (hs : s.Valid) {e : Expr}
    (h : PrimaryAt s.lexeme s.pos j e) : Achieves bad g.primary s (some e) (s.moveTo j) := by
  unfold Achieves
  cases h with
  | literal h => exact .inl (run_primary_literal hs h)
  | path hx hcolon hpath =>
    rw [run_primary_name hx]
    exact ((hg.named hs hx).1 hcolon hpath).map
  | call hx hargs =>
    rw [run_primary_name hx]
    exact ((hg.named hs hx).2.1 hargs).map
  | ident hx hcolon hopen =>
    rw [run_primary_name hx]
    exact ((hg.named hs hx).2.2 hcolon hopen).map
  | unit hopen hclose =>
    rw [run_primary_parenthesized hopen]
    exact (hg.unit hs hopen hclose).map
  | grouping hopen he hclose =>
    rw [run_primary_parenthesized hopen]
    exact (hg.grouping hs hopen he hclose).map
  | tuple hopen he hcomma hes =>
    rw [run_primary_parenthesized hopen]
    exact (hg.tuple hs hopen he hcomma hes).map
  | block hb =>
    rw [run_primary_block hb.openCurly]
    exact (hg.block hs hb).bind Achieves.pure inferInstance
  | compute hheader hbody =>
    rw [run_primary_function hheader.functionKind?]
    exact (hg.compute hs hheader hbody).map
  | action hheader hbody htail =>
    rw [run_primary_function hheader.functionKind?]
    exact (hg.action hs hheader hbody htail).map

theorem Complete.callRounds (hg : g.Complete bad) (rounds : Nat) :
    ∀ {s : State} {callee e : Expr}, s.Valid → CallsAt s.lexeme s.pos j callee e →
      s.remaining < rounds →
      Achieves bad (loopFor g.callRound rounds callee) s e (s.moveTo j) := by
  -- by the rounds, since the callee grows from one call to the next
  induction rounds with
  | zero =>
    intro s callee e _ _ hr
    exact absurd hr (Nat.not_lt_zero _)
  | succ rounds ih =>
    intro s callee e hs h hr
    cases h with
    | done hopen =>
      refine Achieves.done ?_ inferInstance
      unfold Level.callRound
      refine Achieves.step (run_isAt_false (show s.current.kind ≠ .openParen from hopen)) ?_
      exact Achieves.pure hs
    | @call _ k _ _ _ args hargs hcalls =>
      have hopen : s.current.kind = .openParen := hargs.openParen
      have hround : Achieves bad (g.callRound callee) s
          (.again (.callValue callee args (.clamped callee.span.start k))) (s.moveTo k) := by
        unfold Level.callRound
        refine Achieves.step (run_isAt_true hopen) ?_
        refine (hg.arguments hs hargs).bind ?_ inferInstance
        intro hk
        exact Achieves.step rfl (Achieves.pure hk)
      refine hround.again ?_ inferInstance
      intro hk
      exact ih hk hcalls (remaining_moveTo_lt hs (by rw [hopen]; decide) hr hargs.lt)

theorem Complete.called (hg : g.Complete bad) (hs : s.Valid) {k : Nat} {callee e : Expr}
    (hcallee : PrimaryAt s.lexeme s.pos k callee) (hcalls : CallsAt s.lexeme k j callee e) :
    Achieves bad g.called s (some e) (s.moveTo j) := by
  unfold Level.called
  refine (hg.primary hs hcallee).bind ?_ (by rintro (_ | callee) <;> infer_instance)
  intro hk
  exact Achieves.map (hg.callRounds _ hk hcalls (Nat.lt_succ_self _))

omit [g.Keeps] in
theorem run_operator_before (hs : s.Valid) {operation : Operation}
    (h : Operation.unary? (s.lexeme s.pos) = some operation) :
    operator .before s = .ok ⟨operation, .single s.pos⟩ s.next ∧ s.next.Valid := by
  have hend : s.current.kind ≠ .endMark := by
    intro hk
    have hk' : (s.lexeme s.pos).kind = .endMark := hk
    simp [Operation.unary?, hk'] at h
  have hop : Operator.ofToken s.current .before = .ok ⟨operation, .single s.pos⟩ := by
    unfold Operator.ofToken
    rw [State.toLexeme_current, Operation.ofLexeme?, h, hs.index_current]
  refine ⟨?_, hs.next hend⟩
  unfold operator
  rw [run_bind (run_advance hend), hop]
  rfl

theorem Complete.operand (hg : g.Complete bad) (hs : s.Valid) {e : Expr}
    (h : OperandAt s.lexeme s.pos j e) : Achieves bad g.operand s (some e) (s.moveTo j) := by
  unfold Level.operand
  refine Achieves.step run_current ?_
  cases h with
  | @before _ _ operation e hop he =>
    have hop' : Operation.unary? s.current.toLexeme = some operation := hop
    obtain ⟨hrun, hnext⟩ := run_operator_before hs hop
    simp only [hop']
    refine Achieves.step hrun ?_
    refine (hg.unary hnext he).bind ?_ (by rintro (_ | e) <;> infer_instance)
    intro hj
    have hspan : s.pos ≤ e.span.stop := by
      obtain ⟨h₁, h₂, -⟩ := he.within
      omega
    rw [hs.index_current]
    exact Achieves.step (run_rangeBetween hspan) (Achieves.pure hj)
  | called hcallee hcalls =>
    have hop : Operation.unary? s.current.toLexeme = none := hcallee.unary?_eq_none
    simp only [hop]
    exact hg.called hs hcallee hcalls

end Level

end FrontEnd.Grammar
