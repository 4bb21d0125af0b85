import FrontEnd.Proofs.Acceptance.Keeps
import FrontEnd.Proofs.Acceptance.Signature
import FrontEnd.Proofs.Reading.Program

/-! Rules that read what stands in the tokens. A rule may still stop for want of levels, and a
block goes on after that, so the statements have two sides: the rule ends with the given value and
state, or one of its diagnostics is of a given sort. Which sort that is stays open here; if no
diagnostic is of that sort, the first side is all that is left. -/
namespace FrontEnd.Grammar

open Parse

variable {α β : Type}

/-- One of the diagnostics that the outcome comes with is `bad`. -/
def Outcome.Blames (bad : Diagnostic → Prop) (o : Outcome α) : Prop :=
  (∃ d t, o = .error d t ∧ bad d) ∨ ∃ d ∈ o.state.errors, bad d

/-- The rule ends with the value and the state, or a diagnostic is `bad`. -/
def Achieves (bad : Diagnostic → Prop) (p : Parse α) (s : State) (a : α) (t : State) : Prop :=
  (p s = .ok a t ∧ t.Valid) ∨ (p s).Blames bad

namespace Achieves

variable {bad : Diagnostic → Prop} {p : Parse α} {s t u : State} {a : α} {b : β}

theorem pure (hs : s.Valid) : Achieves bad (pure a : Parse α) s a s :=
  .inl ⟨rfl, hs⟩

/-- A step that is known to succeed. -/
theorem step {next : α → Parse β} (h : p s = .ok a t) (hnext : Achieves bad (next a) t b u) :
    Achieves bad (p >>= next) s b u := by
  unfold Achieves at hnext ⊢
  rw [run_bind h]
  exact hnext

theorem bind {next : α → Parse β} (h : Achieves bad p s a t)
    (hnext : t.Valid → Achieves bad (next a) t b u) (hkeeps : ∀ a, Keeps (next a)) :
    Achieves bad (p >>= next) s b u := by
  rcases h with ⟨hrun, ht⟩ | ⟨d, t', hrun, hbad⟩ | ⟨d, hd, hbad⟩
  · exact step hrun (hnext ht)
  · refine .inr (.inl ⟨d, t', ?_, hbad⟩)
    rw [bind_apply, hrun]
  · refine .inr (.inr ⟨d, ?_, hbad⟩)
    rw [bind_apply]
    cases hrun : p s with
    | ok a' t' =>
      rw [hrun] at hd
      exact ((hkeeps a').kept t').subset hd
    | error d' t' =>
      rw [hrun] at hd
      exact hd
    | fault f t' =>
      rw [hrun] at hd
      exact hd

theorem map {f : α → β} (h : Achieves bad p s a t) : Achieves bad (f <$> p) s (f a) t := by
  rw [map_eq_pure_bind]
  exact h.bind Achieves.pure fun a => Keeps.pure (f a)

/-- No diagnostic is excused: the rule ends with the value and the state. -/
theorem run_eq (h : Achieves (fun _ => False) p s a t) : p s = .ok a t ∧ t.Valid := by
  rcases h with h | ⟨_, _, _, hbad⟩ | ⟨_, _, hbad⟩
  · exact h
  · exact hbad.elim
  · exact hbad.elim

/-- A round of a loop that is not the last one. -/
theorem again {round : α → Parse (Round α β)} {rounds : Nat} {a' : α}
    (h : Achieves bad (round a) s (.again a') t)
    (hnext : t.Valid → Achieves bad (loopFor round rounds a') t b u)
    (hkeeps : ∀ a, Keeps (round a)) : Achieves bad (loopFor round (rounds + 1) a) s b u := by
  unfold loopFor
  refine h.bind hnext ?_
  rintro (a' | b')
  · exact Keeps.loopFor rounds a'
  · exact Keeps.pure b'

/-- The last round of a loop. -/
theorem done {round : α → Parse (Round α β)} {rounds : Nat}
    (h : Achieves bad (round a) s (.done b) t) (hkeeps : ∀ a, Keeps (round a)) :
    Achieves bad (loopFor round (rounds + 1) a) s b t := by
  unfold loopFor
  refine h.bind Achieves.pure ?_
  rintro (a' | b')
  · exact Keeps.loopFor rounds a'
  · exact Keeps.pure b'

/-- A rule one level deeper, where there is a level left or its want is `bad`. -/
theorem nested {j : Nat}
    (hd : maxDepth ≤ s.depth → ∀ r, bad ⟨.nestingTooDeep maxDepth, r⟩)
    (h : s.depth < maxDepth →
      Achieves bad p (s.withDepth (s.depth + 1)) a ((s.withDepth (s.depth + 1)).moveTo j)) :
    Achieves bad (nested p) s a (s.moveTo j) := by
  by_cases hdepth : maxDepth ≤ s.depth
  · exact .inr (.inl ⟨_, s, if_pos hdepth, hd hdepth _⟩)
  · rcases h (Nat.lt_of_not_le hdepth) with ⟨hrun, ht⟩ | ⟨d, t', hrun, hbad⟩ | ⟨d, hd, hbad⟩
    · refine .inl ⟨?_, ht⟩
      unfold Grammar.nested
      rw [if_neg hdepth, show p { s with depth := s.depth + 1 } = .ok a _ from hrun]
      rfl
    · refine .inr (.inl ⟨d, { t' with depth := t'.depth - 1 }, ?_, hbad⟩)
      unfold Grammar.nested
      rw [if_neg hdepth, show p { s with depth := s.depth + 1 } = .error d t' from hrun]
    · refine .inr (.inr ⟨d, ?_, hbad⟩)
      rw [state_nested hdepth]
      exact hd

end Achieves

/-- A token that was looked at, and is no end mark, can be passed. -/
theorem State.Valid.moveTo_succ {s : State} {i : Nat} (h : (s.moveTo i).Valid)
    (hk : (s.lexeme i).kind ≠ .endMark) : (s.moveTo (i + 1)).Valid :=
  State.Valid.next h hk

end FrontEnd.Grammar
