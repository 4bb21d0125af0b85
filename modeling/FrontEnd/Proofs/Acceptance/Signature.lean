import FrontEnd.Grammar.Statement
import FrontEnd.Proofs.Primitive

/-! Function headers that stand in the tokens are read. Reading a header opens no level and records
nothing, so from its keyword on it runs to its end whatever else holds. -/
namespace FrontEnd.Grammar

open Parse

variable {α β : Type} {s t : State}

/-- The same state with the cursor at another place. -/
def State.moveTo (s : State) (j : Nat) : State :=
  { s with pos := j }

@[simp] theorem State.moveTo_pos (s : State) (j : Nat) : (s.moveTo j).pos = j := rfl

@[simp] theorem State.moveTo_stream (s : State) (j : Nat) : (s.moveTo j).stream = s.stream := rfl

@[simp] theorem State.moveTo_errors (s : State) (j : Nat) : (s.moveTo j).errors = s.errors := rfl

@[simp] theorem State.moveTo_depth (s : State) (j : Nat) : (s.moveTo j).depth = s.depth := rfl

@[simp] theorem State.next_moveTo (s : State) (j : Nat) :
    (s.moveTo j).next = s.moveTo (j + 1) := rfl

theorem State.next_eq_moveTo (s : State) : s.next = s.moveTo (s.pos + 1) := rfl

@[simp] theorem State.moveTo_moveTo (s : State) (i j : Nat) :
    (s.moveTo i).moveTo j = s.moveTo j := rfl

theorem State.moveTo_self (s : State) : s.moveTo s.pos = s := rfl

theorem run_bind {p : Parse α} {next : α → Parse β} {a : α} (h : p s = .ok a t) :
    (p >>= next) s = next a t := by
  rw [bind_apply, h]

theorem run_map {p : Parse α} {f : α → β} {a : α} (h : p s = .ok a t) :
    (f <$> p) s = .ok (f a) t := by
  rw [map_apply, h]

theorem run_advance (h : s.current.kind ≠ .endMark) : advance s = .ok s.current s.next := by
  unfold advance
  rw [if_neg h]
  rfl

theorem run_current : current s = .ok s.current s := rfl

theorem run_position : position s = .ok s.pos s := rfl

theorem run_isAt (kind : TokenKind) : isAt kind s = .ok (s.current.kind == kind) s := rfl

theorem run_isAt_true {kind : TokenKind} (h : s.current.kind = kind) :
    isAt kind s = .ok true s := by
  rw [run_isAt, beq_iff_eq.mpr h]

theorem run_isAt_false {kind : TokenKind} (h : s.current.kind ≠ kind) :
    isAt kind s = .ok false s := by
  rw [run_isAt, beq_eq_false_iff_ne.mpr h]

theorem run_accept_some {kind : TokenKind} (hk : kind ≠ .endMark)
    (h : s.current.kind = kind) : accept kind s = .ok (some s.current) s.next := by
  unfold accept
  rw [run_bind (run_isAt_true h)]
  exact run_map (run_advance (h ▸ hk))

theorem run_accept_none {kind : TokenKind} (h : s.current.kind ≠ kind) :
    accept kind s = .ok none s := by
  unfold accept
  rw [run_bind (run_isAt_false h)]
  rfl

theorem run_expect {kind : TokenKind} (hk : kind ≠ .endMark) (h : s.current.kind = kind)
    (expected : String) : expect kind expected s = .ok s.current s.next := by
  unfold expect
  rw [run_bind run_current, if_pos h]
  exact run_advance (h ▸ hk)

theorem run_expectSemicolon (h : s.current.kind = .semicolon) :
    expectSemicolon s = .ok s.current s.next := by
  unfold expectSemicolon
  rw [run_bind run_current, if_pos h]
  exact run_advance (by rw [h]; decide)

theorem NameAt.kind_ne_endMark {T : Nat → Lexeme} {i : Nat} {x : Ident} (h : NameAt T i x) :
    (T i).kind ≠ .endMark := by
  rw [h.1]
  decide

theorem run_expectName (hs : s.Valid) {x : Ident} (h : NameAt s.lexeme s.pos x)
    (context : String) : expectName context s = .ok x s.next := by
  obtain ⟨hword, hkey, rfl⟩ := h
  have hkey' : s.current.keyword? = none := hkey
  unfold expectName
  rw [run_bind (run_expect (by decide) hword context)]
  simp only [hkey', pure_apply, Ident.ofToken, hs.index_current]
  rfl

theorem run_loopFor_again {round : α → Parse (Round α β)} {rounds : Nat} {a a' : α}
    (h : round a s = .ok (.again a') t) :
    loopFor round (rounds + 1) a s = loopFor round rounds a' t := by
  rw [loopFor, run_bind h]

theorem run_loopFor_done {round : α → Parse (Round α β)} {rounds : Nat} {a : α} {b : β}
    (h : round a s = .ok (.done b) t) : loopFor round (rounds + 1) a s = .ok b t := by
  rw [loopFor, run_bind h]
  rfl

/-- Passing tokens leaves fewer rounds to be needed. -/
theorem remaining_moveTo_lt {rounds j : Nat} (hs : s.Valid) (hend : s.current.kind ≠ .endMark)
    (hr : s.remaining < rounds + 1) (hj : s.pos < j) : (s.moveTo j).remaining < rounds := by
  have hlim := hs.lt_limit hend
  have hsize := s.stream.limit_lt_size
  simp only [State.remaining, State.moveTo_stream, State.moveTo_pos] at hr ⊢
  omega

theorem run_functionName (hs : s.Valid) {j : Nat} {name : Option Ident}
    (h : OptionalNameAt s.lexeme s.pos j name) : functionName s = .ok name (s.moveTo j) := by
  unfold functionName
  rw [run_bind (run_isAt .word)]
  cases h with
  | none hword =>
    have hword' : s.current.kind ≠ .word := hword
    rw [beq_eq_false_iff_ne.mpr hword']
    rfl
  | some hx =>
    have hword : s.current.kind = .word := hx.1
    rw [beq_iff_eq.mpr hword]
    exact run_map (run_expectName hs hx _)

theorem run_parameterRounds {T : Nat → Lexeme} {i j : Nat} {params : List Ident}
    (h : ParamsAt T i j params) :
    ∀ {s : State}, s.lexeme = T → s.pos = i → s.Valid → ∀ {rounds : Nat} (acc : Array Ident),
      s.remaining < rounds →
      loopFor parameterRound rounds acc s = .ok (acc ++ params.toArray) (s.moveTo j) := by
  -- on the derivation, whose places are those of the cursor
  induction h with
  | nil hclose =>
    rintro s rfl rfl hs (_ | rounds) acc hr
    · exact absurd hr (Nat.not_lt_zero _)
    have hclose' : s.current.kind = .closeParen := hclose
    have hround : parameterRound acc s = .ok (.done acc) s := by
      unfold parameterRound
      rw [run_bind (run_isAt_true hclose')]
      rfl
    rw [run_loopFor_done hround]
    simp [State.moveTo_self]
  | @last i x hx hclose =>
    rintro s rfl rfl hs (_ | rounds) acc hr
    · exact absurd hr (Nat.not_lt_zero _)
    have hword : s.current.kind = .word := hx.1
    have hclose' : s.next.current.kind = .closeParen := hclose
    have hround : parameterRound acc s = .ok (.done (acc.push x)) s.next := by
      unfold parameterRound
      rw [run_bind (run_isAt_false (by rw [hword]; decide))]
      simp only [Bool.false_eq_true, if_false]
      rw [run_bind (run_expectName hs hx _),
        run_bind (run_accept_none (by rw [hclose']; decide))]
      rfl
    rw [run_loopFor_done hround]
    simp [State.next_eq_moveTo]
  | @cons i j x xs hx hcomma _ ih =>
    rintro s rfl rfl hs (_ | rounds) acc hr
    · exact absurd hr (Nat.not_lt_zero _)
    have hword : s.current.kind = .word := hx.1
    have hcomma' : s.next.current.kind = .comma := hcomma
    have hend : s.next.current.kind ≠ .endMark := by
      rw [hcomma']
      decide
    have hnext : s.next.Valid := hs.next hx.kind_ne_endMark
    have hround : parameterRound acc s =
        .ok (.again (acc.push x)) (s.moveTo (s.pos + 2)) := by
      unfold parameterRound
      rw [run_bind (run_isAt_false (by rw [hword]; decide))]
      simp only [Bool.false_eq_true, if_false]
      rw [run_bind (run_expectName hs hx _), run_bind (run_accept_some (by decide) hcomma')]
      rfl
    rw [run_loopFor_again hround, ih (s := s.moveTo (s.pos + 2)) rfl rfl (hnext.next hend) _
      (remaining_moveTo_lt hs hx.kind_ne_endMark hr (by omega))]
    simp

/-- The places of a header lie before the limit. -/
theorem ParamsAt.valid {i j : Nat} {params : List Ident} (h : ParamsAt s.lexeme i j params)
    (hs : (s.moveTo i).Valid) : (s.moveTo j).Valid := by
  induction h with
  | nil => exact hs
  | last hx _ => exact State.Valid.next hs hx.kind_ne_endMark
  | @cons i j x xs hx hcomma _ ih =>
    have hend : (s.moveTo (i + 1)).current.kind ≠ .endMark := by
      show (s.lexeme (i + 1)).kind ≠ .endMark
      rw [hcomma]
      decide
    exact ih (State.Valid.next (State.Valid.next hs hx.kind_ne_endMark) hend)

theorem run_signature (hs : s.Valid) {j : Nat} {kind : FunctionKind} {name : Option Ident}
    {params : List Ident} (h : SignatureAt s.lexeme s.pos j kind name params) :
    signature s = .ok ⟨kind, name, params, s.pos⟩ (s.moveTo j) ∧ (s.moveTo j).Valid := by
  obtain ⟨hkind, hname, hopen, hparams, hclose, harrow⟩ := h
  rename_i k j
  have hend : s.current.kind ≠ .endMark := by
    obtain ⟨keyword, hkey, -⟩ := Option.bind_eq_some_iff.mp hkind
    have hword : s.current.kind = .word := Lexeme.kind_eq_word_of_keyword? hkey
    rw [hword]
    decide
  have hkind' : s.current.keyword?.bind Keyword.functionKind? = some kind := hkind
  have hk : (s.moveTo k).Valid := by
    -- with a name the parenthesis is one token further
    cases hname with
    | none => exact hs.next hend
    | some hx => exact State.Valid.next (hs.next hend) hx.kind_ne_endMark
  have hopen' : (s.moveTo k).current.kind = .openParen := hopen
  have hk₁ : (s.moveTo (k + 1)).Valid := hk.next (by rw [hopen']; decide)
  have hj : (s.moveTo j).Valid := hparams.valid hk₁
  have hclose' : (s.moveTo j).current.kind = .closeParen := hclose
  have harrow' : (s.moveTo (j + 1)).current.kind = .arrow := harrow
  have hj₁ : (s.moveTo (j + 1)).Valid := hj.next (by rw [hclose']; decide)
  refine ⟨?_, hj₁.next (by rw [harrow']; decide)⟩
  have hloop : loop parameterRound #[] (s.moveTo (k + 1)) =
      .ok params.toArray (s.moveTo j) := by
    unfold loop
    rw [run_parameterRounds hparams (s := s.moveTo (k + 1)) rfl rfl hk₁ #[]
      (Nat.lt_succ_self _)]
    simp
  unfold signature
  rw [run_bind (run_advance hend)]
  simp only [hkind', hs.index_current]
  unfold signatureOf
  rw [run_bind (run_functionName (hs.next hend) hname)]
  show (expect .openParen _ >>= _) (s.moveTo k) = _
  rw [run_bind (run_expect (by decide) hopen' _)]
  show (loop parameterRound #[] >>= _) (s.moveTo (k + 1)) = _
  rw [run_bind hloop, run_bind (run_expect (by decide) hclose' _)]
  show (expect .arrow _ >>= _) (s.moveTo (j + 1)) = _
  rw [run_bind (run_expect (by decide) harrow' _)]
  simp

/-- The header of a declaration is read where it stands, up to the opening brace. -/
theorem run_declarationHeader (hs : s.Valid) {j : Nat} {kind : FunctionKind} {name : Ident}
    {params : List Ident} (h : SignatureAt s.lexeme s.pos j kind (some name) params)
    (hopen : (s.lexeme j).kind = .openCurly) :
    declarationHeader s = .ok (⟨kind, some name, params, s.pos⟩, name) (s.moveTo j) := by
  have hopen' : (s.moveTo j).current.kind = .openCurly := hopen
  unfold declarationHeader
  rw [run_bind (run_signature hs h).1]
  simp only [bind_apply, current, hopen', if_true, pure_apply]

end FrontEnd.Grammar
