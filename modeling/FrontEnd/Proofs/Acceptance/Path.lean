import FrontEnd.Proofs.Acceptance.Expression

/-! The rules for paths read every path that stands in the tokens. The rule that opens a level is
only asked for the paths below, so it is enough that it reads those that fit. -/
namespace FrontEnd.Grammar

open Parse

variable {bad : Diagnostic → Prop} {s : State} {j : Nat}

theorem run_pathAlias (hs : s.Valid) {allowed : Bool} {x : Option Ident}
    (h : AliasAt s.lexeme allowed s.pos j x) :
    pathAlias allowed s = .ok x (s.moveTo j) ∧ (s.moveTo j).Valid := by
  unfold pathAlias
  rw [run_bind run_current]
  cases h with
  | none hword =>
    have hword' : s.current.kind ≠ .word := hword
    rw [if_pos hword']
    exact ⟨rfl, hs⟩
  | some has hx =>
    have has' : s.current.keyword? = some .asKey := has
    have hword : s.current.kind = .word := Lexeme.kind_eq_word_of_keyword? has
    have hkey : s.current.isKeyword .asKey = true := by
      simp [Lexeme.isKeyword, has']
    have hend : s.current.kind ≠ .endMark := by
      rw [hword]
      decide
    have hnext : s.next.Valid := hs.next hend
    rw [if_neg (not_not_intro hword), if_neg (by rw [hkey]; decide), if_neg (by decide),
      run_bind (run_advance hend)]
    exact ⟨run_map (run_expectName hnext hx _), hnext.next hx.kind_ne_endMark⟩

theorem run_pathAliasIn (hs : s.Valid) {place : PathPlace} {allowed : Bool} {x : Option Ident}
    (h : AliasInAt s.lexeme place allowed s.pos j x) :
    pathAliasIn place allowed s = .ok x (s.moveTo j) ∧ (s.moveTo j).Valid := by
  cases h with
  | importing h => exact run_pathAlias hs h
  | expression => exact ⟨rfl, hs⟩

/-- The paths that lie a level deeper have the property. An entry of a group that is a single name
opens no level. -/
def AllBeneath (P : Path → Prop) : PathTarget → Prop
  | .nested next => P next
  | .group entries => ∀ entry ∈ entries, entry.target ≠ .leaf → P entry
  | _ => True

theorem PathAt.target_ne_leaf {T : Nat → Lexeme} {place : PathPlace} {segment : Ident} {i : Nat}
    {p : Path} (h : PathAt T place segment i j p) : p.target ≠ .leaf := by
  obtain ⟨htarget, -⟩ := h
  cases htarget <;> simp

/-- The rule for paths reads what stands in the tokens and fits the open levels, or a diagnostic is
`bad`. -/
structure Level.ReadsPaths (bad : Diagnostic → Prop) (fits : Nat → Path → Prop) (g : Level) :
    Prop where
  path : ∀ {s : State} {j : Nat} {segment : Ident} {place : PathPlace} {p : Path}, s.Valid →
    PathAt s.lexeme place segment s.pos j p → fits s.depth p →
    Achieves bad (g.path segment place) s p (s.moveTo j)

namespace Level

variable {fits : Nat → Path → Prop} {g : Level} [g.Keeps]

omit [g.Keeps] in
theorem ReadsPaths.groupEntry (hg : g.ReadsPaths bad fits) {k : Nat} {x : Ident} {entry : Path}
    (hs : (s.moveTo (k + 1)).Valid) (hx : NameAt s.lexeme k x)
    (h : EntryAt s.lexeme k j entry) (hfits : entry.target ≠ .leaf → fits s.depth entry) :
    Achieves bad (g.groupEntry .importing x) (s.moveTo (k + 1)) entry (s.moveTo j) := by
  unfold Level.groupEntry
  cases h with
  | leaf hx' hend halias =>
    obtain rfl := hx'.unique hx
    obtain ⟨hrun, hj⟩ := run_pathAlias hs halias
    refine Achieves.step (run_accept_none (s := s.moveTo (k + 1)) hend) ?_
    refine Achieves.step hrun ?_
    obtain ⟨-, -, rfl⟩ := hx
    exact Achieves.step rfl (Achieves.pure hj)
  | path hx' hcolon hpath =>
    obtain rfl := hx'.unique hx
    refine Achieves.step (run_accept_some (s := s.moveTo (k + 1)) (by decide) hcolon) ?_
    exact hg.path (hs.pass hcolon (by decide)) hpath (hfits hpath.target_ne_leaf)

omit [g.Keeps] in
/-- An entry of a group is followed by another one, or by the end of the group. -/
theorem ReadsPaths.groupRound (hg : g.ReadsPaths bad fits) (hs : s.Valid) {entry : Path}
    (h : EntryAt s.lexeme s.pos j entry) (hfits : entry.target ≠ .leaf → fits s.depth entry)
    (acc : Array Path) :
    ((s.lexeme j).kind = .closeCurly →
      Achieves bad (g.groupRound .importing acc) s (.done (acc.push entry)) (s.moveTo j)) ∧
    ((s.lexeme j).kind = .comma → (s.lexeme (j + 1)).kind ≠ .closeCurly →
      Achieves bad (g.groupRound .importing acc) s (.again (acc.push entry))
        (s.moveTo (j + 1))) := by
  obtain ⟨x, hx⟩ : ∃ x, NameAt s.lexeme s.pos x := by
    cases h with
    | leaf hx _ _ => exact ⟨_, hx⟩
    | path hx _ _ => exact ⟨_, hx⟩
  have hword : s.current.kind = .word := hx.1
  have hnext : (s.moveTo (s.pos + 1)).Valid := hs.next hx.kind_ne_endMark
  have hentry := hg.groupEntry hnext hx h hfits
  unfold Level.groupRound
  refine ⟨?_, ?_⟩
  · intro hclose
    refine Achieves.step (run_isAt_false (by rw [hword]; decide)) ?_
    refine Achieves.step (run_expectName hs hx _) ?_
    refine hentry.bind ?_ fun _ => .afterAccept inferInstance fun _ =>
      .afterAccept inferInstance inferInstance
    intro hj
    have hclose' : (s.moveTo j).current.kind = .closeCurly := hclose
    refine Achieves.step (run_accept_none fun hk => absurd (hclose'.symm.trans hk) (by decide)) ?_
    exact Achieves.pure hj
  · intro hcomma hmore
    refine Achieves.step (run_isAt_false (by rw [hword]; decide)) ?_
    refine Achieves.step (run_expectName hs hx _) ?_
    refine hentry.bind ?_ fun _ => .afterAccept inferInstance fun _ =>
      .afterAccept inferInstance inferInstance
    intro hj
    refine Achieves.step (run_accept_some (s := s.moveTo j) (by decide) hcomma) ?_
    refine Achieves.step (run_accept_none (s := s.moveTo (j + 1)) hmore) ?_
    exact Achieves.pure (hj.pass hcomma (by decide))

theorem EntriesAt.kind_eq_word {T : Nat → Lexeme} {i j : Nat} {entries : List Path}
    (h : EntriesAt T i j entries) : (T i).kind = .word := by
  have hentry : ∀ {k : Nat} {entry : Path}, EntryAt T i k entry → (T i).kind = .word := by
    intro k entry h
    cases h with
    | leaf hx _ _ => exact hx.1
    | path hx _ _ => exact hx.1
  cases h with
  | last h _ => exact hentry h
  | cons h _ _ => exact hentry h

theorem ReadsPaths.groupRounds (hg : g.ReadsPaths bad fits) (entries : List Path) :
    ∀ {s : State} (acc : Array Path) {rounds : Nat}, s.Valid →
      EntriesAt s.lexeme s.pos j entries →
      (∀ entry ∈ entries, entry.target ≠ .leaf → fits s.depth entry) → s.remaining < rounds →
      Achieves bad (loopFor (g.groupRound .importing) rounds acc) s (acc ++ entries.toArray)
        (s.moveTo j) := by
  induction entries with
  | nil =>
    intro s acc rounds _ h _ _
    cases h
  | cons entry entries ih =>
    intro s acc rounds hs h hfits hr
    have hhead := hfits entry List.mem_cons_self
    obtain ⟨rounds, rfl⟩ := Nat.exists_eq_succ_of_ne_zero (Nat.ne_zero_of_lt hr)
    have hend : s.current.kind ≠ .endMark := by
      have hword : s.current.kind = .word := EntriesAt.kind_eq_word h
      rw [hword]
      decide
    cases h with
    | last hentry hclose =>
      have hdone : Achieves bad (loopFor (g.groupRound .importing) (rounds + 1) acc) s
          (acc.push entry) (s.moveTo j) :=
        Achieves.done ((hg.groupRound hs hentry hhead acc).1 hclose) inferInstance
      simpa using hdone
    | @cons _ k _ _ _ hentry hcomma hentries =>
      -- an entry follows the comma, and an entry starts with a word
      have hmore : (s.lexeme (k + 1)).kind ≠ .closeCurly := by
        rw [EntriesAt.kind_eq_word hentries]
        decide
      refine ((hg.groupRound hs hentry hhead acc).2 hcomma hmore).again ?_ inferInstance
      intro hk
      have hrest := ih (s := s.moveTo (k + 1)) (acc.push entry) hk hentries
        (fun entry hentry => hfits entry (List.mem_cons_of_mem _ hentry))
        (remaining_moveTo_lt hs hend hr (Nat.lt_succ_of_lt hentry.lt))
      simpa using hrest

theorem ReadsPaths.group (hg : g.ReadsPaths bad fits) (hs : s.Valid) {entry : Path}
    {entries : List Path} (hopen : (s.lexeme s.pos).kind = .openCurly)
    (hentries : EntriesAt s.lexeme (s.pos + 1) j (entry :: entries))
    (hclose : (s.lexeme j).kind = .closeCurly)
    (hfits : ∀ e ∈ entry :: entries, e.target ≠ .leaf → fits s.depth e) :
    Achieves bad (g.group .importing) s (entry :: entries) (s.moveTo (j + 1)) := by
  have hnext : (s.moveTo (s.pos + 1)).Valid := State.Valid.pass hs hopen (by decide)
  have hloop := hg.groupRounds (entry :: entries) #[] hnext hentries hfits (Nat.lt_succ_self _)
  unfold Level.group
  refine Achieves.step (run_advance (hopen ▸ by decide)) ?_
  refine Achieves.bind hloop ?_ inferInstance
  intro hj
  refine Achieves.step (run_expect (s := s.moveTo j) (by decide) hclose _) ?_
  have hdone : (s.moveTo (j + 1)).Valid := hj.pass hclose (by decide)
  simpa using Achieves.pure hdone

theorem ReadsPaths.pathTarget (hg : g.ReadsPaths bad fits) (hs : s.Valid) {place : PathPlace}
    {target : PathTarget} {aliasable : Bool} (h : TargetAt s.lexeme place s.pos j target aliasable)
    (hfits : AllBeneath (fits s.depth) target) :
    Achieves bad (g.pathTarget place) s (target, aliasable) (s.moveTo j) := by
  unfold Level.pathTarget
  refine Achieves.step run_current ?_
  cases h with
  | item hx hend =>
    have hword : s.current.kind = .word := hx.1
    have hnext : (s.moveTo (s.pos + 1)).Valid := hs.next hx.kind_ne_endMark
    simp only [hword]
    refine Achieves.step (run_expectName hs hx _) ?_
    refine Achieves.step (run_accept_none (s := s.next) hend) ?_
    exact Achieves.pure hnext
  | nested hx hcolon hpath =>
    have hword : s.current.kind = .word := hx.1
    have hnext : (s.moveTo (s.pos + 1)).Valid := hs.next hx.kind_ne_endMark
    simp only [hword]
    refine Achieves.step (run_expectName hs hx _) ?_
    refine Achieves.step (run_accept_some (s := s.next) (by decide) hcolon) ?_
    exact (hg.path (hnext.pass hcolon (by decide)) hpath hfits).bind Achieves.pure inferInstance
  | wildcard hstar =>
    have hstar' : s.current.kind = .star := hstar
    simp only [hstar', if_true]
    refine Achieves.step (run_advance (by rw [hstar']; decide)) ?_
    rw [hs.index_current]
    exact Achieves.pure (State.Valid.pass hs hstar (by decide))
  | group hopen hentries hclose =>
    have hopen' : s.current.kind = .openCurly := hopen
    simp only [hopen', if_true]
    exact (hg.group hs hopen hentries hclose hfits).bind Achieves.pure inferInstance

theorem ReadsPaths.pathFrom (hg : g.ReadsPaths bad fits) (hs : s.Valid) {place : PathPlace}
    {segment : Ident} {p : Path} (h : PathAt s.lexeme place segment s.pos j p)
    (hfits : AllBeneath (fits s.depth) p.target) :
    Achieves bad (g.pathFrom segment place) s p (s.moveTo j) := by
  cases h with
  | mk htarget halias =>
    unfold Level.pathFrom
    refine (hg.pathTarget hs htarget hfits).bind ?_ inferInstance
    intro hk
    obtain ⟨hrun, hj⟩ := run_pathAliasIn hk halias
    refine Achieves.step hrun ?_
    exact Achieves.step rfl (Achieves.pure hj)

omit [g.Keeps] in
/-- Where a want of levels is excused, every path fits. -/
theorem Complete.readsPaths (hg : g.Complete bad) : g.ReadsPaths bad fun _ _ => True :=
  ⟨fun hs h _ => hg.path hs h⟩

theorem Complete.pathFrom (hg : g.Complete bad) (hs : s.Valid) {place : PathPlace}
    {segment : Ident} {p : Path} (h : PathAt s.lexeme place segment s.pos j p) :
    Achieves bad (g.pathFrom segment place) s p (s.moveTo j) := by
  refine hg.readsPaths.pathFrom hs h ?_
  cases p.target <;> simp [AllBeneath]

end Level

end FrontEnd.Grammar
