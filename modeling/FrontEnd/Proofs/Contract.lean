import FrontEnd.Grammar.Primitive
import FrontEnd.Proofs.Stream

/-! Contracts of grammar rules. Whatever a rule does, the state it leaves continues the one it
started from: same stream, same depth, a cursor that has not moved back and not passed the end
mark, and all diagnostics kept. A contract adds what holds of the value if there is one, and says
that there is no fault. -/
namespace FrontEnd.Grammar

open Parse

variable {α β : Type}

namespace State

/-- The cursor has not passed the first end mark. -/
def Valid (s : State) : Prop :=
  s.pos ≤ s.stream.limit

/-- The state behind the token at the cursor. -/
def next (s : State) : State :=
  { s with pos := s.pos + 1 }

/-- What the tokens say, by place. -/
abbrev lexeme (s : State) : Nat → Lexeme :=
  s.stream.lexeme

@[simp] theorem next_pos (s : State) : s.next.pos = s.pos + 1 := rfl

@[simp] theorem next_stream (s : State) : s.next.stream = s.stream := rfl

@[simp] theorem next_errors (s : State) : s.next.errors = s.errors := rfl

@[simp] theorem next_depth (s : State) : s.next.depth = s.depth := rfl

theorem toLexeme_current (s : State) : s.current.toLexeme = s.lexeme s.pos := rfl

theorem kind_current (s : State) : s.current.kind = (s.lexeme s.pos).kind := rfl

theorem Valid.index_current {s : State} (h : s.Valid) : s.current.index = s.pos :=
  TokenStream.index_get h

theorem Valid.lt_limit {s : State} (h : s.Valid) (hk : s.current.kind ≠ .endMark) :
    s.pos < s.stream.limit :=
  TokenStream.lt_limit h hk

theorem Valid.next {s : State} (h : s.Valid) (hk : s.current.kind ≠ .endMark) :
    s.next.Valid :=
  h.lt_limit hk

end State

/-- The second state continues the first one. -/
structure Grows (s t : State) : Prop where
  stream : t.stream = s.stream
  depth : t.depth = s.depth
  pos : s.pos ≤ t.pos
  errors : s.errors <+: t.errors
  valid : s.Valid → t.Valid

namespace Grows

variable {s t u : State}

theorem refl (s : State) : Grows s s :=
  ⟨rfl, rfl, Nat.le_refl _, List.prefix_refl _, id⟩

theorem trans (h : Grows s t) (h' : Grows t u) : Grows s u :=
  ⟨h'.stream.trans h.stream, h'.depth.trans h.depth, Nat.le_trans h.pos h'.pos,
    h.errors.trans h'.errors, h'.valid ∘ h.valid⟩

theorem next (hk : s.current.kind ≠ .endMark) : Grows s s.next :=
  ⟨rfl, rfl, Nat.le_succ _, List.prefix_refl _, fun h => h.next hk⟩

theorem record (d : Diagnostic) : Grows s { s with errors := s.errors ++ [d] } :=
  ⟨rfl, rfl, Nat.le_refl _, List.prefix_append _ _, id⟩

theorem lexeme (h : Grows s t) : t.lexeme = s.lexeme := by
  rw [State.lexeme, h.stream]

/-- If nothing was recorded on the way from `s` to `u`, then nothing was recorded before `t`. -/
theorem clean_left (h : Grows s t) (h' : Grows t u) (hu : u.errors = s.errors) :
    t.errors = s.errors := by
  obtain ⟨x, hx⟩ := h.errors
  obtain ⟨y, hy⟩ := h'.errors
  have hlen := congrArg List.length hu
  rw [← hy, ← hx] at hlen
  simp only [List.length_append] at hlen
  have hx0 : x = [] := List.eq_nil_of_length_eq_zero (by omega)
  rw [← hx, hx0, List.append_nil]

theorem clean_right (h : Grows s t) (h' : Grows t u) (hu : u.errors = s.errors) :
    u.errors = t.errors := by
  rw [hu, h.clean_left h' hu]

end Grows

/-- From the state `s` the rule ends without a fault in a state that continues `s`, and if it has
a value then `post` holds of the value and the state. -/
def Ensures (p : Parse α) (s : State) (post : α → State → Prop) : Prop :=
  match p s with
  | .ok a t => Grows s t ∧ post a t
  | .error _ t => Grows s t
  | .fault _ _ => False

/-- After a round of a loop: `again` holds if another round follows, `done` if it was the last. -/
def AfterRound (again : α → State → Prop) (done : β → State → Prop) (r : Round α β)
    (t : State) : Prop :=
  match r with
  | .again a => again a t
  | .done b => done b t

namespace Ensures

variable {p : Parse α} {s t : State} {post : α → State → Prop}

theorem grows (h : Ensures p s post) : Grows s (p s).state := by
  unfold Ensures at h
  cases hp : p s with
  | ok a t =>
    rw [hp] at h
    exact h.1
  | error d t =>
    rw [hp] at h
    exact h
  | fault f t =>
    rw [hp] at h
    exact h.elim

theorem ok (h : Ensures p s post) {a : α} (hp : p s = .ok a t) : Grows s t ∧ post a t := by
  unfold Ensures at h
  rw [hp] at h
  exact h

theorem error (h : Ensures p s post) {d : Diagnostic} (hp : p s = .error d t) : Grows s t := by
  unfold Ensures at h
  rw [hp] at h
  exact h

theorem no_fault (h : Ensures p s post) (f : Fault) (t : State) : p s ≠ .fault f t := by
  intro hp
  unfold Ensures at h
  rw [hp] at h
  exact h

theorem mono {post' : α → State → Prop} (h : Ensures p s post)
    (hpost : ∀ a t, Grows s t → post a t → post' a t) : Ensures p s post' := by
  unfold Ensures at h ⊢
  cases hp : p s with
  | ok a t =>
    rw [hp] at h
    exact ⟨h.1, hpost a t h.1 h.2⟩
  | error d t =>
    rw [hp] at h
    exact h
  | fault f t =>
    rw [hp] at h
    exact h

theorem pure {a : α} (h : post a s) : Ensures (pure a : Parse α) s post :=
  ⟨Grows.refl s, h⟩

theorem fail (d : Diagnostic) : Ensures (fail d : Parse α) s post :=
  Grows.refl s

theorem bind {next : α → Parse β} {post' : β → State → Prop} (h : Ensures p s post)
    (hnext : ∀ a t, Grows s t → post a t → Ensures (next a) t post') :
    Ensures (p >>= next) s post' := by
  unfold Ensures at h ⊢
  rw [bind_apply]
  cases hp : p s with
  | ok a t =>
    rw [hp] at h
    have ha := hnext a t h.1 h.2
    unfold Ensures at ha
    cases hn : next a t with
    | ok b u =>
      simp only [hn] at ha ⊢
      exact ⟨h.1.trans ha.1, ha.2⟩
    | error d u =>
      simp only [hn] at ha ⊢
      exact h.1.trans ha
    | fault f u =>
      simp only [hn] at ha
  | error d t =>
    rw [hp] at h
    exact h
  | fault f t =>
    rw [hp] at h
    exact h.elim

theorem map {f : α → β} {post' : β → State → Prop} (h : Ensures p s post)
    (hpost : ∀ a t, Grows s t → post a t → post' (f a) t) : Ensures (f <$> p) s post' := by
  unfold Ensures at h ⊢
  rw [map_apply]
  cases hp : p s with
  | ok a t =>
    rw [hp] at h
    exact ⟨h.1, hpost a t h.1 h.2⟩
  | error d t =>
    rw [hp] at h
    exact h
  | fault e t =>
    rw [hp] at h
    exact h

/-- An attempt has a value however the rule ends. -/
theorem attempt (h : Ensures p s post) :
    Ensures (attempt p) s fun r t =>
      match r with
      | .ok a => post a t
      | .error d => p s = .error d t := by
  unfold Ensures at h ⊢
  unfold Parse.attempt
  cases hp : p s with
  | ok a t =>
    rw [hp] at h
    exact h
  | error d t =>
    rw [hp] at h
    exact ⟨h, rfl⟩
  | fault f t =>
    rw [hp] at h
    exact h

/-- A rule one level deeper has the contract it has at the greater depth. -/
theorem nested (h : s.depth < maxDepth → Ensures p { s with depth := s.depth + 1 }
      fun a t => post a { t with depth := t.depth - 1 }) :
    Ensures (nested p) s post := by
  unfold Ensures Grammar.nested
  by_cases hd : maxDepth ≤ s.depth
  · rw [if_pos hd]
    exact Grows.refl s
  · have hp := h (Nat.lt_of_not_le hd)
    rw [if_neg hd]
    unfold Ensures at hp
    cases hr : p { s with depth := s.depth + 1 } with
    | ok a t =>
      simp only [hr] at hp ⊢
      exact ⟨⟨hp.1.stream, by rw [hp.1.depth]; rfl, hp.1.pos, hp.1.errors, hp.1.valid⟩, hp.2⟩
    | error d t =>
      simp only [hr] at hp ⊢
      exact ⟨hp.stream, by rw [hp.depth]; rfl, hp.pos, hp.errors, hp.valid⟩
    | fault f t =>
      simp only [hr] at hp

/-- What holds before every round of a loop. A round that is not the last one passes a token. -/
theorem loopFor {round : α → Parse (Round α β)} {post' : β → State → Prop}
    (inv : α → State → Prop)
    (hround : ∀ a t, Grows s t → t.Valid → inv a t → Ensures (round a) t
      (AfterRound (fun a' u => t.pos < u.pos ∧ inv a' u) post')) :
    ∀ rounds a t, Grows s t → t.Valid → t.remaining < rounds → inv a t →
      Ensures (Parse.loopFor round rounds a) t post' := by
  intro rounds
  induction rounds with
  | zero =>
    intro a t _ _ hr
    exact absurd hr (Nat.not_lt_zero _)
  | succ rounds ih =>
    intro a t hst hv hr ha
    unfold Parse.loopFor
    refine Ensures.bind (hround a t hst hv ha) ?_
    intro r u htu hr'
    cases r with
    | done b => exact Ensures.pure hr'
    | again a' =>
      obtain ⟨hlt, hinv⟩ := hr'
      refine ih a' u (hst.trans htu) (htu.valid hv) ?_ hinv
      have hu : u.pos ≤ u.stream.limit := htu.valid hv
      have hs := u.stream.limit_lt_size
      simp only [State.remaining] at hr ⊢
      rw [htu.stream] at hu hs ⊢
      omega

theorem loop {round : α → Parse (Round α β)} {post' : β → State → Prop} {a : α}
    (inv : α → State → Prop) (hv : s.Valid) (ha : inv a s)
    (hround : ∀ a t, Grows s t → t.Valid → inv a t → Ensures (round a) t
      (AfterRound (fun a' u => t.pos < u.pos ∧ inv a' u) post')) :
    Ensures (loop round a) s post' :=
  loopFor inv hround _ a s (Grows.refl s) hv (Nat.lt_succ_self _) ha

end Ensures

end FrontEnd.Grammar
