import FrontEnd.Proofs.Reading.Statement

/-! What diagnostics say about the tokens they point at. Every cause has its own evidence: the token
that is named as found, the tokens around it, or the tokens at the ends of a longer range. A
contract of rules says that whatever a rule stops with is borne out in this way, and that all that
was recorded before ends no later. -/
namespace FrontEnd

open Grammar

/-- The tokens of the range show an expression of a kind that is no statement on its own: the one
token of a literal or a name, the first token of the others, and the operator of a binary
expression, which is no assignment. -/
def ExprKind.Shown (T : Nat → Lexeme) (r : TokenRange) : ExprKind → Prop
  | .literal => r = .single r.start ∧ (LiteralKind.ofLexeme? (T r.start)).isSome = true
  | .ident => r = .single r.start ∧ (T r.start).kind = .word ∧ (T r.start).keyword? = none
  | .binary => ∃ i operation, r.start < i ∧ i + 1 < r.stop ∧
      Operation.binary? (T i) = some operation ∧ operation ≠ .assign
  | .unary => (Operation.unary? (T r.start)).isSome = true
  | .function => ((T r.start).keyword?.bind Keyword.functionKind?).isSome = true
  | .tuple => (T r.start).kind = .openParen ∧ (T (r.stop - 1)).kind = .closeParen
  | .path => (T r.start).kind = .word ∧ (T (r.start + 1)).kind = .doubleColon
  | .block | .call | .callValue => False

namespace Diagnostic

/-- The diagnostic points at one token, at a place of which `P` holds. -/
def On (d : Diagnostic) (P : Nat → Prop) : Prop :=
  ∃ i, d.span = .single i ∧ P i

/-- The diagnostic points at the one token behind a place of which `P` holds. -/
def Behind (d : Diagnostic) (P : Nat → Prop) : Prop :=
  ∃ i, d.span = .single (i + 1) ∧ P i

/-- The tokens that the diagnostic points at bear out what it says. -/
def Justified (T : Nat → Lexeme) (d : Diagnostic) : Prop :=
  match d.cause with
  -- the token that stands in the way, by its text or as a keyword
  | .unexpectedToken _ found => d.On fun i => found = (T i).text
  | .expectedExpression _ found => d.On fun i => found = (T i).text ∧ ¬ StartsExpr (T i)
  | .unexpectedKeyword keyword _ => d.On fun i => (T i).keyword? = some keyword
  | .keywordAsName keyword _ => d.On fun i => (T i).keyword? = some keyword
  | .missingSemicolon found => d.On fun i => found = (T i).text ∧ (T i).kind ≠ .semicolon
  -- all of a statement, an expression or a block, by its first token and its last
  | .notAllowedInBlock stmt => stmt = .importing ∧ d.span.start < d.span.stop ∧
      (T d.span.start).keyword? = some .importKey ∧ (T (d.span.stop - 1)).kind = .semicolon
  | .cannotStandAlone expr => d.span.start < d.span.stop ∧ expr.Shown T d.span ∧
      -- parentheses around the expression are no part of it
      ∃ j, d.span.stop ≤ j ∧ (T j).kind = .semicolon ∧
        ∀ i, d.span.stop ≤ i → i < j → (T i).kind = .closeParen
  | .missingFunctionName => d.Behind fun i =>
      ((T i).keyword?.bind Keyword.functionKind?).isSome = true ∧ (T (i + 1)).kind = .openParen
  | .actionTail => d.span.start < d.span.stop ∧ (T d.span.start).kind = .openCurly ∧
      (T (d.span.stop - 1)).kind = .closeCurly
  | .actionBodyNotBlock => d.Behind fun i =>
      (T i).kind = .arrow ∧ (T (i + 1)).kind ≠ .openCurly
  | .wildcardOutsideImport => d.Behind fun i =>
      (T i).kind = .doubleColon ∧ (T (i + 1)).kind = .star
  | .groupOutsideImport => d.Behind fun i =>
      (T i).kind = .doubleColon ∧ (T (i + 1)).kind = .openCurly
  | .trailingComma => d.Behind fun i => (T i).kind = .comma ∧ (T (i + 1)).kind = .closeCurly
  | .emptyGroup => d.span.stop = d.span.start + 2 ∧ (T d.span.start).kind = .openCurly ∧
      (T (d.span.start + 1)).kind = .closeCurly
  | .aliasNotAllowed => d.On fun i => (T i).keyword? = some .asKey
  | .expectedAs found => d.On fun i => found = (T i).text ∧ (T i).keyword? ≠ some .asKey
  | .expectedEnd found => d.On fun i => found = (T i).text ∧ (T i).kind ≠ .endMark
  | .nestingTooDeep limit => d.On fun _ => limit = maxDepth

theorem On.start_lt_stop {d : Diagnostic} {P : Nat → Prop} (h : d.On P) :
    d.span.start < d.span.stop := by
  obtain ⟨i, hspan, -⟩ := h
  rw [hspan]
  exact Nat.lt_succ_self i

theorem Behind.start_lt_stop {d : Diagnostic} {P : Nat → Prop} (h : d.Behind P) :
    d.span.start < d.span.stop := by
  obtain ⟨i, hspan, -⟩ := h
  rw [hspan]
  exact Nat.lt_succ_self (i + 1)

/-- A diagnostic that is borne out points at something. -/
theorem Justified.start_lt_stop {T : Nat → Lexeme} {d : Diagnostic} (h : d.Justified T) :
    d.span.start < d.span.stop := by
  obtain ⟨cause, span⟩ := d
  cases cause with
  | notAllowedInBlock stmt => exact h.2.1
  | cannotStandAlone expr => exact h.1
  | actionTail => exact h.1
  | emptyGroup =>
    have hstop : span.stop = span.start + 2 := h.1
    show span.start < span.stop
    omega
  | missingFunctionName => exact Behind.start_lt_stop h
  | actionBodyNotBlock => exact Behind.start_lt_stop h
  | wildcardOutsideImport => exact Behind.start_lt_stop h
  | groupOutsideImport => exact Behind.start_lt_stop h
  | trailingComma => exact Behind.start_lt_stop h
  | _ => exact On.start_lt_stop h

end Diagnostic

namespace Grammar

open Parse

variable {α β : Type} {s t : State} {n m : Nat}

namespace State

/-- All that was recorded is borne out by the tokens, in the order of the ends, and ends at `n` or
before. -/
structure Orderly (n : Nat) (s : State) : Prop where
  justified : ∀ d ∈ s.errors, d.Justified s.lexeme
  sorted : s.errors.Pairwise fun a b => a.span.stop ≤ b.span.stop
  bounded : ∀ d ∈ s.errors, d.span.stop ≤ n

/-- The cursor is at a token of the stream, and nothing recorded ends behind that token. -/
structure Ready (s : State) : Prop where
  valid : s.Valid
  orderly : s.Orderly (s.pos + 1)

namespace Orderly

theorem mono (h : s.Orderly n) (hle : n ≤ m) : s.Orderly m :=
  ⟨h.justified, h.sorted, fun d hd => Nat.le_trans (h.bounded d hd) hle⟩

theorem of_clean (h : s.Orderly n) (hst : Grows s t) (herr : t.errors = s.errors) :
    t.Orderly n where
  justified := by
    rw [herr, hst.lexeme]
    exact h.justified
  sorted := by
    rw [herr]
    exact h.sorted
  bounded := by
    rw [herr]
    exact h.bounded

theorem next (h : s.Orderly n) : s.next.Orderly n :=
  ⟨h.justified, h.sorted, h.bounded⟩

theorem withDepth (h : s.Orderly n) (depth : Nat) : (s.withDepth depth).Orderly n :=
  ⟨h.justified, h.sorted, h.bounded⟩

/-- One more diagnostic, which ends behind all others. -/
theorem record (h : s.Orderly n) {d : Diagnostic} (hd : d.Justified s.lexeme)
    (hn : n ≤ d.span.stop) (hm : d.span.stop ≤ m) :
    ({ s with errors := s.errors ++ [d] } : State).Orderly m where
  justified e he := by
    rcases List.mem_append.mp he with he | he
    · exact h.justified e he
    · rw [List.mem_singleton.mp he]
      exact hd
  sorted := by
    refine List.pairwise_append.mpr ⟨h.sorted, List.pairwise_singleton _ _, ?_⟩
    intro e he e' he'
    rw [List.mem_singleton.mp he']
    exact Nat.le_trans (h.bounded e he) hn
  bounded e he := by
    rcases List.mem_append.mp he with he | he
    · exact Nat.le_trans (h.bounded e he) (Nat.le_trans hn hm)
    · rw [List.mem_singleton.mp he]
      exact hm

end Orderly

namespace Ready

theorem of_orderly (hs : s.Valid) (h : s.Orderly n) (hn : n ≤ s.pos + 1) : s.Ready :=
  ⟨hs, h.mono hn⟩

theorem of_clean (hs : s.Ready) (hst : Grows s t) (herr : t.errors = s.errors) : t.Ready :=
  .of_orderly (hst.valid hs.valid) (hs.orderly.of_clean hst herr) (Nat.succ_le_succ hst.pos)

theorem withDepth (hs : s.Ready) (depth : Nat) : (s.withDepth depth).Ready :=
  ⟨hs.valid, hs.orderly.withDepth depth⟩

theorem next (hs : s.Ready) (hk : s.current.kind ≠ .endMark) : s.next.Ready :=
  hs.of_clean (Grows.next hk) rfl

end Ready

end State

/-- A diagnostic that the rule stopped with, in the state it left: recording it keeps the order. -/
def Reported (d : Diagnostic) (t : State) : Prop :=
  ({ t with errors := t.errors ++ [d] } : State).Orderly (t.pos + 1)

/-- What is claimed of a value, of one that may be missing. -/
def IfSome (post : α → State → Prop) (a? : Option α) (t : State) : Prop :=
  ∀ a ∈ a?, post a t

/-- A rule that has a value leaves a state that continues the first one, and `post` holds; one that
stops with a diagnostic reports it in order. -/
def Reports (p : Parse α) (s : State) (post : α → State → Prop) : Prop :=
  match p s with
  | .ok a t => Grows s t ∧ post a t
  | .error d t => Reported d t
  | .fault _ _ => True

namespace Reports

variable {p : Parse α} {next : α → Parse β} {post post' : α → State → Prop}
  {after : β → State → Prop}

theorem pure {a : α} (h : post a s) : Reports (pure a : Parse α) s post :=
  ⟨Grows.refl s, h⟩

theorem bind (h : Reports p s post)
    (hnext : ∀ a t, Grows s t → post a t → Reports (next a) t after) :
    Reports (p >>= next) s after := by
  unfold Reports at h ⊢
  rw [bind_apply]
  cases hp : p s with
  | ok a t =>
    rw [hp] at h
    have ha := hnext a t h.1 h.2
    unfold Reports at ha
    cases hn : next a t with
    | ok b u =>
      simp only [hn] at ha ⊢
      exact ⟨h.1.trans ha.1, ha.2⟩
    | error d u =>
      simp only [hn] at ha ⊢
      exact ha
    | fault f u => simp only [hn]
  | error d t =>
    rw [hp] at h
    exact h
  | fault f t => trivial

theorem mono (h : Reports p s post) (hpost : ∀ a t, Grows s t → post a t → post' a t) :
    Reports p s post' := by
  unfold Reports at h ⊢
  cases hp : p s with
  | ok a t =>
    rw [hp] at h
    exact ⟨h.1, hpost a t h.1 h.2⟩
  | error d t =>
    rw [hp] at h
    exact h
  | fault f t => trivial

/-- A rule that runs on as another one from a later state. -/
theorem of_run_eq {q : Parse α} (heq : p s = q t) (hst : Grows s t) (h : Reports q t post) :
    Reports p s post := by
  unfold Reports at h ⊢
  rw [heq]
  cases hq : q t with
  | ok a u =>
    rw [hq] at h
    exact ⟨hst.trans h.1, h.2⟩
  | error d u =>
    rw [hq] at h
    exact h
  | fault f u => trivial

theorem map {f : α → β} (h : Reports p s post)
    (hpost : ∀ a t, Grows s t → post a t → after (f a) t) : Reports (f <$> p) s after := by
  rw [map_eq_pure_bind]
  exact h.bind fun a t hst ha => Reports.pure (hpost a t hst ha)

theorem map_some (h : Reports p s post) : Reports (some <$> p) s (IfSome post) := by
  refine h.map ?_
  rintro a t _ ha _ ⟨⟩
  exact ha

theorem pure_some {a : α} (h : post a s) : Reports (Pure.pure (some a)) s (IfSome post) := by
  refine pure ?_
  rintro _ ⟨⟩
  exact h

theorem pure_none : Reports (Pure.pure none) s (IfSome post) := by
  refine pure ?_
  rintro _ ⟨⟩

/-- What is known of the value from elsewhere may be added. -/
theorem and (h : Reports p s post) (h' : Ensures p s post') :
    Reports p s fun a t => post a t ∧ post' a t := by
  unfold Reports at h ⊢
  cases hp : p s with
  | ok a t =>
    rw [hp] at h
    exact ⟨h.1, h.2, (h'.ok hp).2⟩
  | error d t =>
    rw [hp] at h
    exact h
  | fault f t => trivial

theorem attempt (h : Reports p s post) (h' : Ensures p s post') :
    Reports (attempt p) s fun r t =>
      match r with
      | .ok a => post a t ∧ post' a t
      | .error d => Reported d t := by
  have hboth := h.and h'
  have hgrows := h'.grows
  unfold Reports at hboth ⊢
  unfold Parse.attempt
  cases hp : p s with
  | ok a t =>
    rw [hp] at hboth
    exact hboth
  | error d t =>
    rw [hp] at hboth hgrows
    exact ⟨hgrows, hboth⟩
  | fault f t => trivial

/-- A diagnostic that ends behind all that was recorded, and not behind the cursor. -/
theorem fail {d : Diagnostic} (hs : s.Orderly n) (hd : d.Justified s.lexeme)
    (hn : n ≤ d.span.stop) (hpos : d.span.stop ≤ s.pos + 1) :
    Reports (fail d : Parse α) s post :=
  hs.record hd hn hpos

theorem diagnosticHere {cause : DiagnosticCause} {next : Diagnostic → Parse β} (hs : s.Valid)
    (h : Reports (next ⟨cause, .single s.pos⟩) s after) :
    Reports (diagnosticHere cause >>= next) s after := by
  have hrun : (Grammar.diagnosticHere cause >>= next) s = next ⟨cause, .single s.pos⟩ s := by
    show next ⟨cause, .single s.current.index⟩ s = _
    rw [hs.index_current]
  exact of_run_eq hrun (Grows.refl s) h

theorem failHere {cause : DiagnosticCause} (hs : s.Ready)
    (hd : Diagnostic.Justified s.lexeme ⟨cause, .single s.pos⟩) :
    Reports (failHere cause : Parse α) s post :=
  diagnosticHere hs.valid (fail hs.orderly hd (Nat.le_refl _) (Nat.le_refl _))

theorem tooDeep (hs : s.Ready) : Reports (tooDeep : Parse α) s post :=
  failHere hs ⟨s.pos, rfl, rfl⟩

/-- A rule one level deeper. -/
theorem nested (hs : s.Ready) (h : Reports p (s.withDepth (s.depth + 1)) post')
    (hpost : ∀ a t, post' a t → t.depth = s.depth + 1 → post a (t.withDepth s.depth)) :
    Reports (nested p) s post := by
  unfold Reports Grammar.nested
  by_cases hd : maxDepth ≤ s.depth
  · rw [if_pos hd]
    exact (tooDeep hs : Reports (Grammar.tooDeep : Parse α) s post)
  · rw [if_neg hd]
    unfold Reports at h
    have hrun : p { s with depth := s.depth + 1 } = p (s.withDepth (s.depth + 1)) := rfl
    rw [hrun]
    cases hp : p (s.withDepth (s.depth + 1)) with
    | ok a t =>
      rw [hp] at h
      have hdepth : t.depth = s.depth + 1 := h.1.depth
      simp only [hdepth, Nat.add_sub_cancel]
      exact ⟨⟨h.1.stream, rfl, h.1.pos, h.1.errors, h.1.valid⟩, hpost a t h.2 hdepth⟩
    | error d t =>
      -- what is recorded does not depend on the depth
      rw [hp] at h
      exact ⟨h.justified, h.sorted, h.bounded⟩
    | fault f t => trivial

theorem loopFor {round : α → Parse (Round α β)} (inv : α → State → Prop)
    (hround : ∀ a t, Grows s t → inv a t → Reports (round a) t (AfterRound inv after)) :
    ∀ rounds a t, Grows s t → inv a t → Reports (Parse.loopFor round rounds a) t after := by
  intro rounds
  induction rounds with
  | zero =>
    intro a t _ _
    trivial
  | succ rounds ih =>
    intro a t hst ha
    unfold Parse.loopFor
    refine (hround a t hst ha).bind ?_
    intro r u htu hr
    cases r with
    | done b => exact Reports.pure hr
    | again a' => exact ih a' u (hst.trans htu) hr

/-- What holds before every round of a loop. -/
theorem loop {round : α → Parse (Round α β)} {a : α} (inv : α → State → Prop) (ha : inv a s)
    (hround : ∀ a t, Grows s t → inv a t → Reports (round a) t (AfterRound inv after)) :
    Reports (loop round a) s after :=
  loopFor inv hround _ a s (Grows.refl s) ha

theorem ite {c : Prop} [Decidable c] {q : Parse α} (hp : c → Reports p s post)
    (hq : ¬ c → Reports q s post) : Reports (if c then p else q) s post := by
  split
  · exact hp ‹_›
  · exact hq ‹_›

theorem look {next : Token → Parse β} (h : Reports (next s.current) s after) :
    Reports (current >>= next) s after := h

theorem position {next : Nat → Parse β} (h : Reports (next s.pos) s after) :
    Reports (position >>= next) s after := h

theorem rangeFrom {start : Nat} {next : TokenRange → Parse β}
    (h : Reports (next (.clamped start s.pos)) s after) :
    Reports (rangeFrom start >>= next) s after := h

theorem isAt {kind : TokenKind} {next : Bool → Parse β}
    (hyes : s.current.kind = kind → Reports (next true) s after)
    (hno : s.current.kind ≠ kind → Reports (next false) s after) :
    Reports (isAt kind >>= next) s after := by
  have hrun : Reports (next (s.current.kind == kind)) s after := by
    by_cases hk : s.current.kind = kind
    · rw [beq_iff_eq.mpr hk]
      exact hyes hk
    · rw [beq_eq_false_iff_ne.mpr hk]
      exact hno hk
  exact hrun

theorem advance (hk : s.current.kind ≠ .endMark) :
    Reports advance s fun token t => token = s.current ∧ t = s.next := by
  unfold Reports Grammar.advance
  rw [if_neg hk]
  exact ⟨Grows.next hk, rfl, rfl⟩

theorem accept {kind : TokenKind} {next : Option Token → Parse β} (hkind : kind ≠ .endMark)
    (hyes : s.current.kind = kind → Reports (next (some s.current)) s.next after)
    (hno : s.current.kind ≠ kind → Reports (next none) s after) :
    Reports (accept kind >>= next) s after := by
  unfold Grammar.accept
  rw [bind_assoc]
  refine isAt ?_ ?_
  · intro hk
    have hend : s.current.kind ≠ .endMark := hk ▸ hkind
    rw [if_pos rfl, map_eq_pure_bind, bind_assoc]
    refine (advance hend).bind ?_
    rintro token t _ ⟨rfl, rfl⟩
    exact hyes hk
  · intro hk
    exact hno hk

theorem expect {kind : TokenKind} (hs : s.Ready) (hkind : kind ≠ .endMark) (expected : String) :
    Reports (expect kind expected) s fun token t =>
      s.current.kind = kind ∧ token = s.current ∧ t = s.next := by
  unfold Grammar.expect
  refine look (ite ?_ ?_)
  · intro hk
    refine (advance (hk ▸ hkind)).mono ?_
    rintro token t _ ⟨rfl, rfl⟩
    exact ⟨hk, rfl, rfl⟩
  · intro _
    exact failHere hs ⟨s.pos, rfl, rfl⟩

theorem expectSemicolon (hs : s.Ready) :
    Reports expectSemicolon s fun _ t => s.current.kind = .semicolon ∧ t = s.next := by
  unfold Grammar.expectSemicolon
  refine look (ite ?_ ?_)
  · intro hk
    refine (advance (by rw [hk]; decide)).mono ?_
    rintro token t _ ⟨rfl, rfl⟩
    exact ⟨hk, rfl⟩
  · intro hk
    exact failHere hs ⟨s.pos, rfl, rfl, hk⟩

/-- A name. A keyword in its place has been passed when it is reported. -/
theorem expectName (hs : s.Ready) (context : String) :
    Reports (expectName context) s fun x t => NameAt s.lexeme s.pos x ∧ t = s.next := by
  refine (?_ : Reports _ s fun _ _ => True).and (Ensures.expectName hs.valid context) |>.mono ?_
  · unfold Grammar.expectName
    refine (expect hs (by decide) context).bind ?_
    rintro token t hst ⟨-, rfl, rfl⟩
    split
    · -- the range ends at the cursor, so no earlier one can end behind it
      rename_i keyword hkey
      rw [hs.valid.index_current]
      exact fail hs.orderly.next ⟨s.pos, rfl, hkey⟩ (Nat.le_refl _) (Nat.le_succ _)
    · exact Reports.pure trivial
  · rintro x t _ ⟨-, hx⟩
    exact hx

end Reports

end Grammar

end FrontEnd
