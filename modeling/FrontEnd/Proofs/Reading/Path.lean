import FrontEnd.Grammar.Path
import FrontEnd.Proofs.Reading.Basic

/-! What the rules for paths read. -/
namespace FrontEnd.Grammar

open Parse

variable {s : State}

theorem ensures_pathAlias (hs : s.Valid) (allowed : Bool) :
    Ensures (pathAlias allowed) s fun x t =>
      AliasAt s.lexeme allowed s.pos t.pos x ∧ t.errors = s.errors := by
  unfold pathAlias
  refine Ensures.current.bind ?_
  rintro token t _ ⟨rfl, rfl⟩
  by_cases hword : t.current.kind = .word
  · rw [if_neg (not_not_intro hword)]
    by_cases has : t.current.isKeyword .asKey = false
    · rw [if_pos has]
      exact Ensures.failHere _
    · rw [if_neg has]
      cases allowed with
      | false => exact Ensures.failHere _
      | true =>
        rw [if_neg (by decide)]
        have hend : t.current.kind ≠ .endMark := by
          rw [hword]
          decide
        have hkey : t.current.keyword? = some .asKey := by
          simpa [Lexeme.isKeyword] using has
        refine (Ensures.advance hend).bind ?_
        rintro token u hu ⟨-, rfl⟩
        refine (Ensures.expectName (hs.next hend) _).map ?_
        rintro x v _ ⟨hx, rfl⟩
        exact ⟨.some hkey hx, rfl⟩
  · rw [if_pos hword]
    exact Ensures.pure ⟨.none hword, rfl⟩

theorem ensures_pathAliasIn (hs : s.Valid) (place : PathPlace) (allowed : Bool) :
    Ensures (pathAliasIn place allowed) s fun x t =>
      AliasInAt s.lexeme place allowed s.pos t.pos x ∧ t.errors = s.errors := by
  cases place with
  | importing =>
    refine (ensures_pathAlias hs allowed).mono ?_
    rintro x t _ ⟨hx, ht⟩
    exact ⟨.importing hx, ht⟩
  | expression => exact Ensures.pure ⟨.expression, rfl⟩

namespace Level

variable {g : Level}

theorem Sound.groupEntry (hg : g.Sound) (hs : s.Valid) {i : Nat} {x : Ident}
    (hx : NameAt s.lexeme i x) (hi : s.pos = i + 1) :
    Ensures (g.groupEntry .importing x) s fun entry t =>
      t.errors = s.errors → EntryAt s.lexeme i t.pos entry := by
  have hstart : x.span.start = i := by
    rw [hx.2.2]
    rfl
  unfold Level.groupEntry
  refine (Ensures.accept (by decide)).bind ?_
  rintro token? t ht hc
  cases token? with
  | some token =>
    obtain ⟨hcolon, -, rfl⟩ := hc
    refine (hg.path s.next x .importing (ht.valid hs)).mono ?_
    rintro entry u _ ⟨-, -, hpath⟩ hclean
    have hat := hpath hclean
    simp only [State.next_pos, hi] at hat
    exact .path hx (hi ▸ hcolon) hat
  | none =>
    obtain ⟨hcolon, rfl⟩ := hc
    refine (ensures_pathAlias hs true).bind ?_
    rintro localName u hu ⟨hlocal, -⟩
    refine (Ensures.rangeFrom _).bind ?_
    rintro span v _ ⟨rfl, rfl⟩
    refine Ensures.pure ?_
    intro _
    rw [hi] at hlocal
    rw [hstart]
    exact .leaf hx (hi ▸ hcolon) hlocal

/-- The entries read so far, with those that follow, are the entries of the group. -/
def EntriesRead (s : State) (entries : Array Path) (t : State) : Prop :=
  t.errors = s.errors → ∀ j rest, EntriesAt s.lexeme t.pos j rest →
    EntriesAt s.lexeme s.pos j (entries.toList ++ rest)

namespace EntriesRead

variable {t u : State} {entries : Array Path} {entry : Path}

/-- One more entry, with the comma behind it. -/
theorem push (h : EntriesRead s entries t) (hclean : u.errors = s.errors → t.errors = s.errors)
    (hentry : u.errors = s.errors → EntryAt s.lexeme t.pos u.pos entry)
    (hcomma : (s.lexeme u.pos).kind = .comma) : EntriesRead s (entries.push entry) u.next := by
  intro hu j rest hrest
  have hall := h (hclean hu) j (entry :: rest) (.cons (hentry hu) hcomma hrest)
  simpa using hall

/-- One more entry, before the brace that closes the group. -/
theorem last (h : EntriesRead s entries t) (hclean : t.errors = s.errors)
    (hentry : EntryAt s.lexeme t.pos u.pos entry) (hclose : (s.lexeme u.pos).kind = .closeCurly) :
    EntriesAt s.lexeme s.pos u.pos (entries.push entry).toList := by
  have hall := h hclean u.pos [entry] (.last hentry hclose)
  simpa using hall

end EntriesRead

theorem Sound.groupRound (hg : g.Sound) {t : State} (ht : t.Valid) (hst : Grows s t)
    {entries : Array Path} (hread : EntriesRead s entries t)
    (hne : entries ≠ #[] → t.current.kind ≠ .closeCurly) :
    Ensures (g.groupRound .importing entries) t (AfterRound
      (fun entries' u => t.pos < u.pos ∧ EntriesRead s entries' u ∧
        (entries' ≠ #[] → u.current.kind ≠ .closeCurly))
      fun entries' u => entries' ≠ #[] → u.errors = s.errors →
        u.current.kind = .closeCurly → EntriesAt s.lexeme s.pos u.pos entries'.toList) := by
  unfold Level.groupRound
  refine (Ensures.isAt _).bind ?_
  rintro b t' _ ⟨hb, rfl⟩
  cases b with
  | true =>
    -- behind a comma the brace was refused, so there is no entry yet
    refine Ensures.pure ?_
    intro hentries
    exact absurd (hb.mp rfl) (hne hentries)
  | false =>
    refine (Ensures.expectName ht _).bind ?_
    rintro x t₁ ht₁ ⟨hx, rfl⟩
    refine (hg.groupEntry (ht₁.valid ht) hx rfl).bind ?_
    intro entry t₂ ht₂ hentry
    have hst₂ : Grows s t₂ := (hst.trans ht₁).trans ht₂
    have hentryAt : t₂.errors = s.errors → EntryAt s.lexeme t'.pos t₂.pos entry := by
      intro hclean
      have h := hentry ((hst.trans ht₁).clean_right ht₂ hclean)
      rw [ht₁.lexeme, hst.lexeme] at h
      exact h
    have hclean₁ : t₂.errors = s.errors → t'.errors = s.errors := hst.clean_left (ht₁.trans ht₂)
    refine (Ensures.accept (by decide)).bind ?_
    intro token? t₃ ht₃ hc
    cases token? with
    | none =>
      obtain ⟨-, rfl⟩ := hc
      refine Ensures.pure ?_
      intro _ hclean hclose
      exact hread.last (hclean₁ hclean) (hentryAt hclean) (by rwa [← hst₂.lexeme])
    | some token =>
      obtain ⟨hcomma, -, rfl⟩ := hc
      refine (Ensures.accept (by decide)).bind ?_
      intro token? t₄ ht₄ hc
      cases token? with
      | some close => exact Ensures.fail _
      | none =>
        obtain ⟨hopen, rfl⟩ := hc
        have hpush := hread.push hclean₁ hentryAt (by rwa [← hst₂.lexeme])
        exact Ensures.pure ⟨Nat.lt_succ_of_lt ht₂.pos, hpush, fun _ => hopen⟩

theorem Sound.group (hg : g.Sound) (hs : s.Valid) (hopen : s.current.kind = .openCurly) :
    Ensures (g.group .importing) s fun entries t => s.pos < t.pos ∧
      (t.errors = s.errors → ∃ entry rest j, entries = entry :: rest ∧ t.pos = j + 1 ∧
        EntriesAt s.lexeme (s.pos + 1) j entries ∧ (s.lexeme j).kind = .closeCurly) := by
  have hend : s.current.kind ≠ .endMark := by
    rw [hopen]
    decide
  unfold Level.group
  refine (Ensures.advance hend).bind ?_
  rintro opening t ht ⟨-, rfl⟩
  refine (Ensures.loop (fun entries u => EntriesRead s.next entries u ∧
    (entries ≠ #[] → u.current.kind ≠ .closeCurly)) (ht.valid hs)
    ⟨fun _ j rest hrest => by simpa using hrest, fun h => absurd rfl h⟩
    (fun entries u hu hv hinv => hg.groupRound hv hu hinv.1 hinv.2)).bind ?_
  intro entries u hu hentries
  refine (Ensures.expect (by decide) _).bind ?_
  rintro token v hv ⟨hclose, -, rfl⟩
  by_cases hempty : entries.isEmpty = true
  · rw [if_pos hempty]
    refine (Ensures.rangeFrom _).bind ?_
    intro span w _ _
    exact Ensures.fail _
  · rw [if_neg hempty]
    refine Ensures.pure ⟨Nat.lt_succ_of_lt hu.pos, ?_⟩
    intro hclean
    have hne : entries ≠ #[] := by simpa [Array.isEmpty_iff] using hempty
    have hat := hentries hne hclean hclose
    obtain ⟨entry, rest, hlist⟩ := List.exists_cons_of_ne_nil (l := entries.toList)
      (by simpa using hne)
    refine ⟨entry, rest, u.pos, hlist, rfl, hat, ?_⟩
    rw [← (ht.trans hu).lexeme]
    exact hclose

theorem Sound.pathTarget (hg : g.Sound) (hs : s.Valid) (place : PathPlace) :
    Ensures (g.pathTarget place) s fun target t => s.pos < t.pos ∧
      (t.errors = s.errors → TargetAt s.lexeme place s.pos t.pos target.1 target.2) := by
  unfold Level.pathTarget
  refine Ensures.current.bind ?_
  rintro token t _ ⟨rfl, rfl⟩
  split
  · refine (Ensures.expectName hs _).bind ?_
    rintro x u hu ⟨hx, rfl⟩
    refine (Ensures.accept (by decide)).bind ?_
    rintro token? v hv hc
    cases token? with
    | some token =>
      obtain ⟨hcolon, -, rfl⟩ := hc
      refine (hg.path _ x place (hv.valid (hu.valid hs))).bind ?_
      rintro next w hw ⟨hlt, -, hpath⟩
      refine Ensures.pure ⟨Nat.lt_of_succ_lt (Nat.lt_of_succ_lt hlt), ?_⟩
      intro hclean
      exact .nested hx hcolon (hpath hclean)
    | none =>
      obtain ⟨hcolon, rfl⟩ := hc
      exact Ensures.pure ⟨Nat.lt_succ_self _, fun _ => .item hx hcolon⟩
  · rename_i hstar
    cases place with
    | importing =>
      refine (Ensures.advance (by rw [hstar]; decide)).bind ?_
      rintro star u _ ⟨rfl, rfl⟩
      refine Ensures.pure ⟨Nat.lt_succ_self _, fun _ => ?_⟩
      rw [hs.index_current]
      exact .wildcard hstar
    | expression => exact Ensures.failHere _
  · rename_i hopen
    cases place with
    | importing =>
      refine (hg.group hs hopen).bind ?_
      rintro entries u hu ⟨hlt, hentries⟩
      refine Ensures.pure ⟨hlt, ?_⟩
      intro hclean
      obtain ⟨entry, rest, j, rfl, hj, hat, hclose⟩ := hentries hclean
      rw [hj]
      exact .group hopen hat hclose
    | expression => exact Ensures.failHere _
  · exact Ensures.failHere _

theorem Sound.pathFrom (hg : g.Sound) (hs : s.Valid) (segment : Ident) (place : PathPlace) :
    Ensures (g.pathFrom segment place) s (PathRead place segment s) := by
  unfold Level.pathFrom
  refine (hg.pathTarget hs place).bind ?_
  rintro ⟨target, aliasable⟩ t ht ⟨hlt, htarget⟩
  refine (ensures_pathAliasIn (ht.valid hs) place aliasable).bind ?_
  rintro localName u hu ⟨hlocal, hsame⟩
  refine (Ensures.rangeFrom _).bind ?_
  rintro span v _ ⟨rfl, rfl⟩
  refine Ensures.pure ⟨Nat.lt_of_lt_of_le hlt hu.pos, rfl, ?_⟩
  intro hclean
  rw [ht.lexeme] at hlocal
  exact .mk (htarget (hsame ▸ hclean)) hlocal

end Level

end FrontEnd.Grammar
