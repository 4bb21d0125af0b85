import FrontEnd.Grammar.Primitive

/-! The state that a rule leaves, however the rule ends. A relation between that state and the one
the rule was started in is put together from the parts of the rule. -/
namespace FrontEnd.Grammar

open Parse

variable {α β : Type} {R : State → State → Prop} {p : Parse α} {s : State}

theorem state_map (f : α → β) (p : Parse α) (s : State) : ((f <$> p) s).state = (p s).state := by
  rw [map_apply]
  cases p s <;> rfl

theorem state_attempt (p : Parse α) (s : State) : (attempt p s).state = (p s).state := by
  unfold attempt
  cases p s <;> rfl

theorem state_nested (h : ¬ maxDepth ≤ s.depth) :
    (nested p s).state =
      { (p { s with depth := s.depth + 1 }).state with
        depth := (p { s with depth := s.depth + 1 }).state.depth - 1 } := by
  unfold nested
  rw [if_neg h]
  cases p { s with depth := s.depth + 1 } <;> rfl

/-- Whatever state the rule is started in, that state is related to the one it leaves. -/
def Relates (R : State → State → Prop) (p : Parse α) : Prop :=
  ∀ s, R s (p s).state

namespace Relates

theorem map {f : α → β} (h : Relates R p) : Relates R (f <$> p) := by
  intro s
  rw [state_map]
  exact h s

theorem attempt (h : Relates R p) : Relates R (attempt p) := by
  intro s
  rw [state_attempt]
  exact h s

theorem bind {next : α → Parse β} (htrans : ∀ {s t u : State}, R s t → R t u → R s u)
    (h : Relates R p) (hnext : ∀ a, Relates R (next a)) : Relates R (p >>= next) := by
  intro s
  have hs := h s
  rw [bind_apply]
  cases hrun : p s with
  | ok a t =>
    rw [hrun] at hs
    exact htrans hs (hnext a t)
  | error d t =>
    rw [hrun] at hs
    exact hs
  | fault f t =>
    rw [hrun] at hs
    exact hs

theorem loopFor {round : α → Parse (Round α β)} (hrefl : ∀ s, R s s)
    (htrans : ∀ {s t u : State}, R s t → R t u → R s u) (hround : ∀ a, Relates R (round a))
    (rounds : Nat) : ∀ a, Relates R (loopFor round rounds a) := by
  induction rounds with
  | zero =>
    intro a s
    exact hrefl s
  | succ rounds ih =>
    intro a
    refine bind htrans (hround a) ?_
    intro r
    cases r with
    | again a => exact ih a
    | done b => exact hrefl

/-- One level deeper, for a relation that does not mind the level. -/
theorem nested (hrefl : ∀ s, R s s)
    (hdepth : ∀ s t, R { s with depth := s.depth + 1 } t → R s { t with depth := t.depth - 1 })
    (h : Relates R p) : Relates R (nested p) := by
  intro s
  by_cases hd : maxDepth ≤ s.depth
  · rw [show Grammar.nested p s = tooDeep s from if_pos hd]
    exact hrefl s
  · rw [state_nested hd]
    exact hdepth s _ (h _)

end Relates

end FrontEnd.Grammar
