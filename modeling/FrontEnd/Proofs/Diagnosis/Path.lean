import FrontEnd.Proofs.Diagnosis.Basic

/-! Diagnostics of function headers and paths. The rules for them record nothing, so what they stop
with ends behind all that was recorded before. -/
namespace FrontEnd.Grammar

open Parse

variable {α : Type} {s t : State}

/-- Nothing was recorded since the state `s`. -/
def Quiet (s : State) (_ : α) (t : State) : Prop :=
  t.errors = s.errors

theorem reports_parameterRound (hs : s.Ready) (hst : Grows s t) (ht : t.errors = s.errors)
    (params : Array Ident) :
    Reports (parameterRound params) t (AfterRound (Quiet s) (Quiet s)) := by
  have htr := hs.of_clean hst ht
  unfold parameterRound
  refine .isAt (fun _ => .pure ht) fun _ => ?_
  refine (Reports.expectName htr _).bind ?_
  rintro x u _ ⟨-, rfl⟩
  exact .accept (by decide) (fun _ => .pure ht) fun _ => .pure ht

theorem reports_functionName (hs : s.Ready) : Reports functionName s (Quiet s) := by
  unfold functionName
  refine .isAt (fun _ => ?_) fun _ => .pure rfl
  refine (Reports.expectName hs _).map ?_
  rintro x t _ ⟨-, rfl⟩
  rfl

theorem reports_signatureOf (hs : s.Ready) (kind : FunctionKind) (start : Nat) :
    Reports (signatureOf kind start) s (Quiet s) := by
  unfold signatureOf
  refine (reports_functionName hs).bind ?_
  intro name t₁ h₁ hquiet₁
  have hs₁ := hs.of_clean h₁ hquiet₁
  refine (Reports.expect hs₁ (by decide) _).bind ?_
  rintro token t₂ h₂ ⟨-, -, rfl⟩
  have hs₂ := hs₁.of_clean h₂ rfl
  refine (Reports.loop (Quiet t₁.next) rfl
    fun params u hu hquiet => reports_parameterRound hs₂ hu hquiet params).bind ?_
  intro params t₃ h₃ hquiet₃
  have hs₃ := hs₂.of_clean h₃ hquiet₃
  refine (Reports.expect hs₃ (by decide) _).bind ?_
  rintro token t₄ h₄ ⟨-, -, rfl⟩
  refine (Reports.expect (hs₃.of_clean h₄ rfl) (by decide) _).bind ?_
  rintro token t₅ _ ⟨-, -, rfl⟩
  exact .pure (Eq.trans hquiet₃ hquiet₁)

/-- A function header where its keyword is at the cursor. -/
theorem reports_signature (hs : s.Ready) {kind : FunctionKind}
    (hkind : s.current.keyword?.bind Keyword.functionKind? = some kind) :
    Reports signature s fun header t =>
      header.kind = kind ∧ header.start = s.pos ∧ t.errors = s.errors ∧ s.pos < t.pos ∧
        SignatureAt s.lexeme s.pos t.pos kind header.name header.params := by
  have hend : s.current.kind ≠ .endMark := by
    obtain ⟨keyword, hkey, -⟩ := Option.bind_eq_some_iff.mp hkind
    rw [Lexeme.kind_eq_word_of_keyword? hkey]
    decide
  have hquiet : Reports signature s (Quiet s) := by
    unfold signature
    refine (Reports.advance hend).bind ?_
    rintro token t ht ⟨rfl, rfl⟩
    simp only [hkind]
    exact reports_signatureOf (hs.next hend) kind _
  refine (hquiet.and (ensures_signature hs.valid hkind)).mono ?_
  rintro header t _ ⟨-, hheader⟩
  exact hheader

theorem reports_pathAlias (hs : s.Ready) (allowed : Bool) :
    Reports (pathAlias allowed) s (Quiet s) := by
  unfold pathAlias
  refine .look (.ite (fun _ => .pure rfl) fun hword => .ite (fun has => ?_) fun has =>
    .ite (fun _ => ?_) fun _ => ?_)
  · exact .failHere hs ⟨s.pos, rfl, rfl, beq_eq_false_iff_ne.mp has⟩
  · exact .failHere hs ⟨s.pos, rfl, beq_iff_eq.mp (Bool.of_not_eq_false has)⟩
  · have hend : s.current.kind ≠ .endMark := by
      rw [not_not.mp hword]
      decide
    refine (Reports.advance hend).bind ?_
    rintro token t _ ⟨-, rfl⟩
    refine (Reports.expectName (hs.next hend) _).map ?_
    rintro x u _ ⟨-, rfl⟩
    rfl

theorem reports_pathAliasIn (hs : s.Ready) (place : PathPlace) (allowed : Bool) :
    Reports (pathAliasIn place allowed) s (Quiet s) := by
  cases place with
  | importing => exact reports_pathAlias hs allowed
  | expression => exact .pure rfl

/-- The token before the cursor is of the given kind. -/
def State.Follows (s : State) (kind : TokenKind) : Prop :=
  ∃ i, s.pos = i + 1 ∧ (s.lexeme i).kind = kind

theorem State.follows_next {kind : TokenKind} (h : s.current.kind = kind) : s.next.Follows kind :=
  ⟨s.pos, rfl, h⟩

/-- A diagnostic on the token at the cursor that has to do with the token before it. -/
theorem Reports.failBehind {post : α → State → Prop} {kind : TokenKind} {cause : DiagnosticCause}
    (hs : s.Ready) (h : s.Follows kind)
    (hd : ∀ i, s.pos = i + 1 → (s.lexeme i).kind = kind →
      Diagnostic.Justified s.lexeme ⟨cause, .single (i + 1)⟩) :
    Reports (Grammar.failHere cause : Parse α) s post := by
  obtain ⟨i, hi, hkind⟩ := h
  have hjust := hd i hi hkind
  rw [← hi] at hjust
  exact .failHere hs hjust

/-- The rule for paths of a level, behind a double colon. -/
def Level.PathReports (g : Level) : Prop :=
  ∀ s segment place, s.Ready → s.Follows .doubleColon → Reports (g.path segment place) s (Quiet s)

namespace Level

variable {g : Level}

theorem PathReports.groupEntry (hg : g.PathReports) (hs : s.Ready) (place : PathPlace)
    (segment : Ident) : Reports (g.groupEntry place segment) s (Quiet s) := by
  unfold Level.groupEntry
  refine .accept (by decide) (fun hcolon => ?_) fun _ => ?_
  · have hend : s.current.kind ≠ .endMark := ne_of_eq_of_ne hcolon (by decide)
    exact hg _ segment place (hs.next hend) (State.follows_next hcolon)
  · refine (reports_pathAlias hs true).bind ?_
    intro localName t _ hquiet
    exact .rangeFrom (.pure hquiet)

/-- A round of a group: the entries are still none only where the group starts. -/
theorem PathReports.groupRound (hg : g.PathReports) (hs : s.Ready) (hst : Grows s t)
    (ht : t.errors = s.errors) (place : PathPlace) {entries : Array Path}
    (hempty : entries = #[] → t.pos = s.pos) :
    Reports (g.groupRound place entries) t
      (AfterRound (fun es u => u.errors = s.errors ∧ (es = #[] → u.pos = s.pos))
        fun es u => u.errors = s.errors ∧ (es = #[] → u.pos = s.pos)) := by
  have htr := hs.of_clean hst ht
  unfold Level.groupRound
  refine .isAt (fun _ => .pure ⟨ht, hempty⟩) fun _ => ?_
  refine (Reports.expectName htr _).bind ?_
  rintro segment t₁ h₁ ⟨-, rfl⟩
  have hs₁ := htr.of_clean h₁ rfl
  refine (hg.groupEntry hs₁ place segment).bind ?_
  intro entry t₂ h₂ hquiet₂
  have hclean : t₂.errors = s.errors := Eq.trans hquiet₂ ht
  have hs₂ := hs₁.of_clean h₂ hquiet₂
  have hpush : entries.push entry ≠ #[] := Array.push_ne_empty
  refine .accept (by decide) (fun hcomma => ?_)
    fun _ => .pure ⟨hclean, fun h => absurd h hpush⟩
  have hend : t₂.current.kind ≠ .endMark := ne_of_eq_of_ne hcomma (by decide)
  have hs₃ := hs₂.next hend
  refine .accept (by decide) (fun hclose => ?_)
    fun _ => .pure ⟨hclean, fun h => absurd h hpush⟩
  -- the brace is reported from behind the comma, where nothing was recorded since
  simp only [hs₃.valid.index_current]
  exact .fail hs₂.orderly.next.next ⟨t₂.pos, rfl, hcomma, hclose⟩ (Nat.le_succ _) (Nat.le_succ _)

theorem PathReports.group (hg : g.PathReports) (hs : s.Ready)
    (hopen : s.current.kind = .openCurly) (place : PathPlace) :
    Reports (g.group place) s (Quiet s) := by
  have hend : s.current.kind ≠ .endMark := ne_of_eq_of_ne hopen (by decide)
  unfold Level.group
  refine (Reports.advance hend).bind ?_
  rintro opening t ht ⟨rfl, rfl⟩
  have hs₁ := hs.next hend
  refine (Reports.loop (fun es u => u.errors = s.next.errors ∧ (es = #[] → u.pos = s.next.pos))
    ⟨rfl, fun _ => rfl⟩ fun es u hu hinv =>
      hg.groupRound hs₁ hu hinv.1 place hinv.2).bind ?_
  rintro entries u hu ⟨hclean, hempty⟩
  have hu' := hs₁.of_clean hu hclean
  refine (Reports.expect hu' (by decide) _).bind ?_
  rintro token v hv ⟨hclose, -, rfl⟩
  refine .ite (fun hes => .rangeFrom ?_) fun _ => .pure hclean
  -- the group is closed by the token behind the one that opens it
  have hpos : u.pos = s.pos + 1 := hempty (Array.isEmpty_iff.mp hes)
  have hclose' : (s.lexeme (s.pos + 1)).kind = .closeCurly := by
    rw [← hpos, ← show u.lexeme = s.lexeme from hu.lexeme]
    exact hclose
  have hlex : u.next.lexeme = s.lexeme := hu.lexeme
  have hspan : TokenRange.clamped s.current.index u.next.pos = ⟨s.pos, s.pos + 2⟩ := by
    rw [hs.valid.index_current, State.next_pos, hpos, TokenRange.clamped_of_le (by omega)]
  rw [hspan]
  refine .fail hu'.orderly.next ?_ ?_ ?_
  · rw [hlex]
    exact ⟨rfl, hopen, hclose'⟩
  · show u.pos + 1 ≤ s.pos + 2
    omega
  · show s.pos + 2 ≤ u.pos + 1 + 1
    omega

theorem PathReports.pathTarget (hg : g.PathReports) (hs : s.Ready) (hcolon : s.Follows .doubleColon)
    (place : PathPlace) : Reports (g.pathTarget place) s (Quiet s) := by
  unfold Level.pathTarget
  refine .look ?_
  split
  · rename_i hword
    refine (Reports.expectName hs _).bind ?_
    rintro item t ht ⟨-, rfl⟩
    have ht' := hs.of_clean ht rfl
    refine .accept (by decide) (fun hcolon' => ?_) fun _ => .pure rfl
    have hend : s.next.current.kind ≠ .endMark := ne_of_eq_of_ne hcolon' (by decide)
    refine (hg _ item place (ht'.next hend) (State.follows_next hcolon')).bind ?_
    intro next u _ hquiet
    exact .pure hquiet
  · -- both marks are at the cursor, and the token before it is the double colon
    rename_i hstar
    refine .ite (fun _ => ?_) fun _ => ?_
    · refine (Reports.advance (by rw [hstar]; decide)).bind ?_
      rintro star t _ ⟨-, rfl⟩
      exact .pure rfl
    · refine .failBehind hs hcolon fun i hi hk => ⟨i, rfl, hk, ?_⟩
      rw [← hi]
      exact hstar
  · rename_i hopen
    refine .ite (fun _ => ?_) fun _ => ?_
    · refine (hg.group hs hopen place).bind ?_
      intro entries t _ hquiet
      exact .pure hquiet
    · refine .failBehind hs hcolon fun i hi hk => ⟨i, rfl, hk, ?_⟩
      rw [← hi]
      exact hopen
  · exact .failHere hs ⟨s.pos, rfl, rfl⟩

theorem PathReports.pathFrom (hg : g.PathReports) (hs : s.Ready) (hcolon : s.Follows .doubleColon)
    (segment : Ident) (place : PathPlace) :
    Reports (g.pathFrom segment place) s (Quiet s) := by
  unfold Level.pathFrom
  refine (hg.pathTarget hs hcolon place).bind ?_
  rintro ⟨target, aliasable⟩ t ht hquiet
  refine (reports_pathAliasIn (hs.of_clean ht hquiet) place aliasable).bind ?_
  intro localName u _ hquiet'
  exact .rangeFrom (.pure (Eq.trans hquiet' hquiet))

end Level

end FrontEnd.Grammar
