import FrontEnd.Proofs.Confinement
import FrontEnd.Proofs.Recovery

/-! Statements that are refused. After a diagnostic reading goes on behind the next semicolon,
wherever the diagnostic came from, and from there on as if nothing had stood before: a statement
that is refused costs one diagnostic and hides none behind it. -/
namespace FrontEnd

namespace Grammar

open Parse

variable {s t : State} {n : Nat}

/-- Nothing before the semicolon at place `n` is a place where reading could go on. -/
structure Plain (n : Nat) (s : State) : Prop where
  semicolon : (s.lexeme n).kind = .semicolon
  kinds : ∀ i < n, (s.lexeme i).kind ∉ [.semicolon, .openCurly, .closeCurly, .endMark]
  opens : ∀ i < n, 0 < i → (s.lexeme i).opensStatement = false

namespace Plain

theorem kind_ne (h : Plain n s) (hle : s.pos ≤ n) :
    s.current.kind ≠ .closeCurly ∧ s.current.kind ≠ .endMark := by
  rw [State.kind_current]
  rcases Nat.lt_or_eq_of_le hle with hlt | heq
  · have hkind := h.kinds s.pos hlt
    simp only [List.mem_cons, List.not_mem_nil, or_false, not_or] at hkind
    exact ⟨hkind.2.2.1, hkind.2.2.2⟩
  · rw [heq, h.semicolon]
    decide

theorem kind_ne_semicolon {i : Nat} (h : Plain n s) (hi : i < n) :
    (s.lexeme i).kind ≠ .semicolon := by
  have hkind := h.kinds i hi
  simp only [List.mem_cons, List.not_mem_nil, or_false, not_or] at hkind
  exact hkind.1

theorem opensStatement_eq {i : Nat} (h : Plain n s) (hpos : 0 < i) (hle : i ≤ n) :
    (s.lexeme i).opensStatement = false := by
  rcases Nat.lt_or_eq_of_le hle with hlt | rfl
  · exact h.opens i hlt hpos
  · have hkey : (s.lexeme i).keyword? = none := by
      rw [Lexeme.keyword?, h.semicolon]
      rfl
    rw [Lexeme.opensStatement, hkey]

theorem of_lexeme_eq (h : Plain n s) (ht : t.lexeme = s.lexeme) : Plain n t := by
  obtain ⟨hsemi, hkinds, hopens⟩ := h
  rw [← ht] at hsemi hkinds hopens
  exact ⟨hsemi, hkinds, hopens⟩

end Plain

/-- Behind its first token the place behind the semicolon is the first one to go on at. -/
theorem Plain.isLeast (h : Plain n s) (hle : s.pos ≤ n) :
    IsLeast {i | s.pos < i ∧ ResumesAt s.lexeme i} (n + 1) := by
  refine ⟨⟨Nat.lt_succ_of_le hle, .semicolon h.semicolon⟩, ?_⟩
  intro i hi
  obtain ⟨hlt, hresumes⟩ := hi
  by_contra hnot
  have hin : i ≤ n := by omega
  obtain ⟨hclose, hend⟩ := (h.of_lexeme_eq (t := s.moveTo i) rfl).kind_ne hin
  cases hresumes with
  | semicolon hsemi => exact h.kind_ne_semicolon (by omega) hsemi
  | closing hkind => exact hclose hkind
  | ending hkind => exact hend hkind
  | keyword hword hvalue =>
    have hopens := h.opensStatement_eq (by omega) hin
    simp [Lexeme.opensStatement_iff.mpr ⟨hword, hvalue⟩] at hopens

theorem run_recover (h : Plain n s) (hle : s.pos ≤ n) :
    recover s = .ok () (s.moveTo (n + 1)) := by
  obtain ⟨hclose, hend⟩ := h.kind_ne hle
  exact run_recover_next hclose hend (h.isLeast hle)

/-- The keywords that open a statement. -/
theorem opensStatement_eq_false {lexeme : Lexeme} (h : lexeme.keyword? ∉
    [some .letKey, some .actionKey, some .computeKey, some .returnKey, some .importKey]) :
    lexeme.opensStatement = false := by
  unfold Lexeme.opensStatement
  cases hkey : lexeme.keyword? with
  | none => rfl
  | some keyword =>
    rw [hkey] at h
    cases keyword with
    | letKey | actionKey | computeKey | returnKey | importKey => simp at h
    | _ => rfl

/-- The tokens of a statement before its semicolon, if none of them but the first one is a place
where reading could go on. -/
theorem plain_ofTokens {d b : List Token} {semi : Token} (hsemi : semi.kind = .semicolon)
    (hkinds : ∀ token ∈ d, token.kind ∉ [.semicolon, .openCurly, .closeCurly, .endMark])
    (hkeywords : ∀ token ∈ d.tail, token.keyword? ∉
      [some .letKey, some .actionKey, some .computeKey, some .returnKey, some .importKey]) :
    Plain d.length (.ofTokens (d ++ semi :: b)) := by
  have hshows : ∀ {i token}, (d ++ semi :: b)[i]? = some token →
      (State.ofTokens (d ++ semi :: b)).lexeme i = token.toLexeme :=
    TokenStream.lexeme_ofTokens
  have hfirst : ∀ {i} (hi : i < d.length),
      (State.ofTokens (d ++ semi :: b)).lexeme i = d[i].toLexeme := by
    intro i hi
    exact hshows (by rw [List.getElem?_append_left hi, List.getElem?_eq_getElem hi])
  refine ⟨?_, ?_, ?_⟩
  · have hmark : (d ++ semi :: b)[d.length]? = some semi := by simp
    rw [hshows hmark]
    exact hsemi
  · intro i hi
    rw [hfirst hi]
    exact hkinds _ (List.getElem_mem hi)
  · intro i hi hpos
    rw [hfirst hi]
    refine opensStatement_eq_false (hkeywords d[i] ?_)
    obtain ⟨j, rfl⟩ := Nat.exists_eq_succ_of_ne_zero (Nat.ne_zero_of_lt hpos)
    rw [List.mem_iff_getElem]
    exact ⟨j, by rw [List.length_tail]; omega, by rw [List.getElem_tail]⟩

theorem Plain.confined (h : Plain n s) (hpos : s.pos ≤ n) (herrors : s.errors = []) :
    Confined n s where
  pos := hpos
  errors := herrors
  semicolon := h.semicolon
  unopened i hi hopen := h.kinds i hi (by simp [hopen])

/-- The round that a refused statement costs. -/
theorem run_programRound_error {e : Diagnostic} (h : Plain n s) (hpos : s.pos = 0)
    (herrors : s.errors = []) (hrun : statement false s = .error e t) :
    ∃ u, programRound #[] s = .ok (.again #[]) u ∧ u.pos = n + 1 ∧ u.errors = [e] := by
  have hle : s.pos ≤ n := hpos ▸ Nat.zero_le n
  have ht := confined_of_statement (h.confined hle herrors) hrun
  have hgrows := grows_statement s
  rw [hrun] at hgrows
  have hattempt : attempt (statement false) s = .ok (.error e) t := by
    simp only [attempt, hrun]
  have hplain : Plain n { t with errors := t.errors ++ [e] } := h.of_lexeme_eq hgrows.lexeme
  have hrecover := run_recover hplain ht.pos
  refine ⟨State.moveTo { t with errors := t.errors ++ [e] } (n + 1), ?_, rfl, ?_⟩
  · unfold programRound
    rw [run_bind run_hasTokens, beq_eq_false_iff_ne.mpr (h.kind_ne hle).2, Bool.not_false,
      if_pos rfl, run_bind hattempt]
    show (record e >>= _) t = _
    rw [run_bind (show record e t = .ok () { t with errors := t.errors ++ [e] } from rfl),
      run_bind hrecover]
    rfl
  · show t.errors ++ [e] = [e]
    rw [ht.errors, List.nil_append]

end Grammar

namespace Program

open Grammar

/-- A statement that is refused before its semicolon costs its diagnostic, and the rest says what
it says alone, at its places. -/
theorem ofTokens_isolates {d b : List Token} {semi : Token} {e : Diagnostic} {t : State}
    (hsemi : semi.kind = .semicolon)
    (hkinds : ∀ token ∈ d, token.kind ∉ [.semicolon, .openCurly, .closeCurly, .endMark])
    (hkeywords : ∀ token ∈ d.tail, token.keyword? ∉
      [some .letKey, some .actionKey, some .computeKey, some .returnKey, some .importKey])
    (h : statement false (.ofTokens (d ++ semi :: b)) = .error e t) :
    (∀ q, ofTokens b = .ok q → ofTokens (d ++ semi :: b) = .error (.refused [e])) ∧
    ∀ ds, ofTokens b = .error (.refused ds) → ofTokens (d ++ semi :: b) =
      .error (.refused (e :: ds.map (Diagnostic.shift (d.length + 1)))) := by
  obtain ⟨u, hround, hpos, herrors⟩ := run_programRound_error
    (plain_ofTokens hsemi hkinds hkeywords) rfl rfl h
  have hgrows := grows_programRound #[] (.ofTokens (d ++ semi :: b))
  rw [hround] at hgrows
  have hwhole : d ++ semi :: b = (d ++ [semi]) ++ b := by simp
  have hlength : (d ++ [semi]).length = d.length + 1 := by simp
  have hends : ∀ token ∈ d ++ [semi], token.kind ≠ .endMark := by
    simp only [List.mem_append, List.mem_singleton]
    rintro token (hmem | rfl) hend
    · exact hkinds token hmem (by simp [hend])
    · simp [hsemi] at hend
  have hvalid : u.Valid := hgrows.valid (State.valid_ofTokens _)
  have hlinked : Linked (.total (d ++ [semi]).length u.errors) (.ofTokens b) u :=
    linked_ofTokens hends (hgrows.stream.trans (by rw [hwhole]; rfl)) (hpos.trans hlength.symm)
      hgrows.depth hvalid
  have hrest : (State.ofTokens b).remaining < (State.ofTokens (d ++ semi :: b)).remaining := by
    have hpassed : 0 < u.pos := hpos ▸ Nat.succ_pos _
    exact Nat.lt_of_le_of_lt hlinked.remaining_le (hgrows.remaining_lt hvalid hpassed)
  have hsays := ofOutcome_programFrom hlinked hrest #[]
  -- the first round is the refused statement; all others read the rest
  have hrun : ofTokens (d ++ semi :: b) =
      ofOutcome (programFrom (State.ofTokens (d ++ semi :: b)).remaining #[] u) := by
    rw [ofTokens_eq, programFrom, Parse.bind_apply, run_loopFor_again hround]
    rfl
  rw [herrors, hlength] at hsays
  rw [hrun]
  exact hsays

/-- The tokens of `let as`, which takes a keyword for a name. -/
def misnamedTokens : List Token :=
  [⟨.word "let", ⟨0, 3⟩, 0⟩, ⟨.word "as", ⟨4, 6⟩, 0⟩]

def semicolonToken : Token := ⟨.fixed .semicolon, ⟨6, 7⟩, 0⟩

/-- The tokens of `return;`. -/
def returnTokens : List Token :=
  [⟨.word "return", ⟨8, 14⟩, 0⟩, ⟨.fixed .semicolon, ⟨14, 15⟩, 0⟩]

/-- The keyword is passed before it is refused: reading goes on from the semicolon itself, and what
is wrong behind it is found all the same. -/
theorem ofTokens_isolates_misnamed :
    ∃ e t ds, statement false (.ofTokens (misnamedTokens ++ semicolonToken :: returnTokens)) =
        .error e t ∧
      t.pos = 2 ∧ ofTokens returnTokens = .error (.refused ds) ∧ ds.map (·.span) = [.single 1] ∧
      ofTokens (misnamedTokens ++ semicolonToken :: returnTokens) =
        .error (.refused (e :: ds.map (Diagnostic.shift 3))) := by
  have hpos : (match statement false
      (.ofTokens (misnamedTokens ++ semicolonToken :: returnTokens)) with
      | .error _ t => some t.pos
      | _ => none) = some 2 := by
    decide +kernel
  have hspans : (match ofTokens returnTokens with
      | .error (.refused ds) => ds.map (·.span)
      | _ => []) = [.single 1] := by
    decide +kernel
  cases hrun : statement false
      (.ofTokens (misnamedTokens ++ semicolonToken :: returnTokens)) with
  | ok stmt? t =>
    rw [hrun] at hpos
    cases hpos
  | fault f t =>
    rw [hrun] at hpos
    cases hpos
  | error e t =>
    rw [hrun] at hpos
    rcases hrun' : ofTokens returnTokens with (ds | f) | q
    · rw [hrun'] at hspans
      exact ⟨e, t, ds, rfl, Option.some.inj hpos, rfl, hspans,
        (ofTokens_isolates rfl (by decide) (by decide) hrun).2 ds hrun'⟩
    · rw [hrun'] at hspans
      cases hspans
    · rw [hrun'] at hspans
      cases hspans

end Program

end FrontEnd
