import FrontEnd.Proofs.Acceptance.Signature
import FrontEnd.Proofs.Relates
import FrontEnd.Proofs.Shift

/-! Two runs of a rule side by side, on streams that show the same lexemes at places a fixed
distance apart. The second run does what the first one does, at its own places, as long as the first
one sees only what is shown to both. Where it saw more, or stopped with a diagnostic that the two
runs need not share, the first run is excused and nothing is said about the second. -/
namespace FrontEnd.Grammar

open Parse

variable {α β γ : Type}

/-- A rule that ends with a value ended its first part with one. -/
theorem exists_of_bind {p : Parse α} {next : α → Parse β} {s u : State} {b : β}
    (h : (p >>= next) s = .ok b u) : ∃ a t, p s = .ok a t ∧ next a t = .ok b u := by
  rw [bind_apply] at h
  cases hp : p s with
  | ok a t =>
    rw [hp] at h
    exact ⟨a, t, rfl, h⟩
  | error d t =>
    rw [hp] at h
    cases h
  | fault f t =>
    rw [hp] at h
    cases h

/-- How the second of two runs is placed to the first. -/
structure Link where
  /-- How much further on the cursor is. -/
  offset : Nat
  /-- How many levels fewer are open. -/
  deeper : Nat
  /-- What was recorded before. -/
  earlier : List Diagnostic
  /-- Diagnostics that the two runs need not share. -/
  bad : Diagnostic → Prop
  /-- Places at which the two runs are known to see the same. -/
  shown : Nat → Prop
  shown_of_le : ∀ {i j : Nat}, i ≤ j → shown j → shown i

/-- The state of the second run corresponds to that of the first. -/
structure Linked (K : Link) (s t : State) : Prop where
  lexeme : ∀ i, K.shown i → t.lexeme (i + K.offset) = s.lexeme i
  size : s.stream.tokens.size + K.offset ≤ t.stream.tokens.size
  pos : t.pos = s.pos + K.offset
  errors : t.errors = K.earlier ++ s.errors.map (Diagnostic.shift K.offset)
  depth : s.depth = t.depth + K.deeper
  valid : s.Valid
  valid' : t.Valid

/-- Values as they correspond in two runs that are `k` places apart. -/
class Moves (α : Type) where
  Moved : Nat → α → α → Prop
  total : ∀ k a, ∃ b, Moved k a b

export Moves (Moved)

namespace Moves

instance [Shift α] : Moves α where
  Moved k a b := b = Shift.shift k a
  total k a := ⟨Shift.shift k a, rfl⟩

/-- Tokens correspond if they say the same; which bytes they were read from is of no account. -/
instance : Moves Token where
  Moved k a b := ∃ span, b = { a with span := span, index := a.index + k }
  total _ a := ⟨_, a.span, rfl⟩

instance : Moves (Option Token) where
  Moved k
    | none, b => b = none
    | some a, b => ∃ token, b = some token ∧ Moved k a token
  total k
    | none => ⟨none, rfl⟩
    | some a =>
      let ⟨token, h⟩ := total k a
      ⟨some token, token, rfl, h⟩

end Moves

namespace Link

variable (K : Link)

/-- A want of levels comes to both runs, or they need not share it. -/
def Deep : Prop :=
  K.deeper = 0 ∨ ∀ r, K.bad ⟨.nestingTooDeep maxDepth, r⟩

/-- A diagnostic was recorded that the two runs need not share. -/
def Blames (s : State) : Prop :=
  ∃ d ∈ s.errors, K.bad d

/-- A place that is not shown was passed, or is at the cursor if the run looks `ahead`. -/
def Beyond (ahead : Bool) (_ : α) (s : State) : Prop :=
  ∃ i < s.pos + ahead.toNat, ¬ K.shown i

/-- The first run need not have a counterpart. Which values excuse it, in which states, is said
by `E`. -/
def Excused (E : α → State → Prop) : Outcome α → Prop
  | .ok a s => E a s ∨ K.Blames s
  | .error d s => K.bad d ∨ ¬ K.shown s.pos ∨ K.Blames s
  | .fault _ _ => True

/-- The outcome of the second run corresponds to that of the first, or the first is excused. -/
inductive Corresponds [Moves α] (E : α → State → Prop) : Outcome α → Outcome α → Prop where
  | ok {a b : α} {s t : State} (h : Moved K.offset a b) (hst : Linked K s t) :
      Corresponds E (.ok a s) (.ok b t)
  | error {d : Diagnostic} {s t : State} (hst : Linked K s t) :
      Corresponds E (.error d s) (.error (d.shift K.offset) t)
  | excused {o o' : Outcome α} (h : K.Excused E o) : Corresponds E o o'

end Link

/-- In linked states the second rule does what the first one does, unless that is excused. -/
structure Follows [Moves α] (K : Link) (E : α → State → Prop) (p q : Parse α) : Prop where
  grows : ∀ s, Grows s (p s).state
  run : ∀ {s t : State}, Linked K s t → K.Corresponds E (p s) (q t)

variable {K : Link} {s t : State}

/-- A run that has passed a token has fewer left. -/
theorem Grows.remaining_lt (h : Grows s t) (ht : t.Valid) (hlt : s.pos < t.pos) :
    t.remaining < s.remaining := by
  have hle : t.pos ≤ t.stream.limit := ht
  have hsize := t.stream.limit_lt_size
  simp only [State.remaining, h.stream] at hle hsize ⊢
  omega

theorem Linked.remaining_le (h : Linked K s t) : s.remaining ≤ t.remaining := by
  have hsize := h.size
  have hpos := h.pos
  simp only [State.remaining]
  omega

theorem Link.Blames.grows (h : K.Blames s) (hst : Grows s t) : K.Blames t := by
  obtain ⟨d, hd, hbad⟩ := h
  exact ⟨d, hst.errors.subset hd, hbad⟩

theorem Link.Beyond.grows {ahead : Bool} {a : α} {b : β} (h : K.Beyond ahead a s)
    (hst : Grows s t) : K.Beyond ahead b t := by
  obtain ⟨i, hi, hhidden⟩ := h
  exact ⟨i, Nat.lt_of_lt_of_le hi (Nat.add_le_add_right hst.pos _), hhidden⟩

/-- What was passed is behind what lies ahead. -/
theorem Link.Beyond.ahead {ahead : Bool} {a : α} (h : K.Beyond ahead a s) :
    K.Beyond true a s := by
  obtain ⟨i, hi, hhidden⟩ := h
  have hle : ahead.toNat ≤ 1 := Bool.toNat_le ahead
  exact ⟨i, Nat.lt_of_lt_of_le hi (Nat.add_le_add_left hle _), hhidden⟩

theorem Link.beyond_of_not_shown (a : α) (h : ¬ K.shown s.pos) : K.Beyond true a s :=
  ⟨s.pos, Nat.lt_succ_self _, h⟩

theorem Link.Beyond.not_shown {ahead : Bool} {a : α} (h : K.Beyond ahead a s) :
    ¬ K.shown s.pos := by
  obtain ⟨i, hi, hhidden⟩ := h.ahead
  exact fun hs => hhidden (K.shown_of_le (Nat.le_of_lt_succ hi) hs)

/-- The two runs end alike, or the first one is excused. -/
theorem Link.Corresponds.cases [Moves α] {E : α → State → Prop} {o o' : Outcome α}
    (h : K.Corresponds E o o') :
    (∃ a b s t, o = .ok a s ∧ o' = .ok b t ∧ Moved K.offset a b ∧ Linked K s t) ∨
      (∃ d s t, o = .error d s ∧ o' = .error (d.shift K.offset) t ∧ Linked K s t) ∨
        K.Excused E o := by
  cases h with
  | ok hab hst => exact .inl ⟨_, _, _, _, rfl, rfl, hab, hst⟩
  | error hst => exact .inr (.inl ⟨_, _, _, rfl, rfl, hst⟩)
  | excused hex => exact .inr (.inr hex)

namespace Link.Excused

variable {E E' : α → State → Prop} {o : Outcome α}

theorem mono (h : K.Excused E o) (hE : ∀ a s, E a s → E' a s) : K.Excused E' o := by
  cases o with
  | ok a s => exact h.imp_left (hE a s)
  | error d s => exact h
  | fault f s => trivial

theorem of_blames (h : K.Blames s) (hgrows : Grows s o.state) : K.Excused E o := by
  cases o with
  | ok a t => exact .inr (h.grows hgrows)
  | error d t => exact .inr (.inr (h.grows hgrows))
  | fault f t => trivial

theorem of_beyond {ahead : Bool} {b : β} (h : K.Beyond ahead b s) (hgrows : Grows s o.state) :
    K.Excused (K.Beyond ahead) o := by
  cases o with
  | ok a t => exact .inl (h.grows hgrows)
  | error d t => exact .inr (.inl (h.grows (b := b) hgrows).not_shown)
  | fault f t => trivial

/-- A run goes on. What excuses its first part has to excuse all that follows. -/
theorem bind {E' : β → State → Prop} {p : Parse α} {next : α → Parse β} (h : K.Excused E (p s))
    (hgrows : ∀ a u, Grows u (next a u).state)
    (hpass : ∀ a u, p s = .ok a u → E a u → K.Excused E' (next a u)) :
    K.Excused E' ((p >>= next) s) := by
  rw [bind_apply]
  cases hrun : p s with
  | ok a u =>
    rw [hrun] at h
    rcases h with hex | hblames
    · exact hpass a u hrun hex
    · exact of_blames hblames (hgrows a u)
  | error d u =>
    rw [hrun] at h
    exact h
  | fault f u => trivial

end Link.Excused

section

variable [Moves α] [Moves β] {E : α → State → Prop} {E' : β → State → Prop} {p q : Parse α}
  {next next' : α → Parse β} {ahead : Bool}

namespace Follows

theorem mono {F : α → State → Prop} (h : Follows K E p q) (hE : ∀ a s, E a s → F a s) :
    Follows K F p q where
  grows := h.grows
  run hst := by
    have hrun := h.run hst
    generalize p _ = o at hrun ⊢
    generalize q _ = o' at hrun ⊢
    cases hrun with
    | ok hab hst' => exact .ok hab hst'
    | error hst' => exact .error hst'
    | excused hex => exact .excused (hex.mono hE)

theorem pure {a b : α} (h : Moved K.offset a b) :
    Follows K E (pure a : Parse α) (pure b : Parse α) where
  grows := Grows.refl
  run hst := .ok h hst

theorem fail (d : Diagnostic) :
    Follows K E (fail d : Parse α) (fail (d.shift K.offset) : Parse α) where
  grows := Grows.refl
  run hst := .error hst

theorem raise (f : Fault) (q : Parse α) : Follows K E (raise f : Parse α) q where
  grows := Grows.refl
  run _ := .excused trivial

theorem grows_next (hnext : ∀ a b, Moved K.offset a b → Follows K E' (next a) (next' b)) (a : α)
    (s : State) : Grows s (next a s).state := by
  obtain ⟨b, hab⟩ := Moves.total K.offset a
  exact (hnext a b hab).grows s

/-- The rules run one after the other. What excuses the first run has to excuse all that may follow
it. -/
theorem bindWith (hp : Follows K E p q)
    (hnext : ∀ a b, Moved K.offset a b → Follows K E' (next a) (next' b))
    (hpass : ∀ a s, s.Valid → Grows s (next a s).state → E a s → K.Excused E' (next a s)) :
    Follows K E' (p >>= next) (q >>= next') := by
  constructor
  · exact Relates.bind Grows.trans hp.grows (grows_next hnext)
  · intro s t hst
    have hs := (hp.grows s).valid hst.valid
    rcases (hp.run hst).cases with
      ⟨a, b, u, v, hrun, hrun', hab, huv⟩ | ⟨d, u, v, hrun, hrun', huv⟩ | hex
    · rw [run_bind hrun, run_bind hrun']
      exact (hnext a b hab).run huv
    · rw [bind_apply, bind_apply, hrun, hrun']
      exact .error huv
    · -- nothing is known of the second run, so the first one alone has to stay excused
      refine .excused (hex.bind (grows_next hnext) ?_)
      intro a u hrun hex
      rw [hrun] at hs
      exact hpass a u hs (grows_next hnext a u) hex

theorem bindTo (hp : Follows K (K.Beyond ahead) p q)
    (hE' : ∀ b s, K.Beyond ahead b s → E' b s)
    (hnext : ∀ a b, Moved K.offset a b → Follows K E' (next a) (next' b)) :
    Follows K E' (p >>= next) (q >>= next') := by
  refine hp.bindWith hnext ?_
  intro a s _ hgrows hbeyond
  exact (Link.Excused.of_beyond hbeyond hgrows).mono hE'

theorem bind (hp : Follows K (K.Beyond ahead) p q)
    (hnext : ∀ a b, Moved K.offset a b → Follows K (K.Beyond ahead) (next a) (next' b)) :
    Follows K (K.Beyond ahead) (p >>= next) (q >>= next') :=
  hp.bindTo (fun _ _ h => h) hnext

theorem mapWith {f : α → β} (hp : Follows K E p q)
    (hf : ∀ a b, Moved K.offset a b → Moved K.offset (f a) (f b))
    (hE : ∀ a s, E a s → E' (f a) s) : Follows K E' (f <$> p) (f <$> q) := by
  rw [map_eq_pure_bind, map_eq_pure_bind]
  refine hp.bindWith ?_ ?_
  · intro a b hab
    exact pure (hf a b hab)
  · intro a s _ _ hex
    exact .inl (hE a s hex)

theorem map {f : α → β} (hp : Follows K (K.Beyond ahead) p q)
    (hf : ∀ a b, Moved K.offset a b → Moved K.offset (f a) (f b)) :
    Follows K (K.Beyond ahead) (f <$> p) (f <$> q) :=
  hp.mapWith hf fun _ _ h => h

theorem ite {c : Prop} [Decidable c] {p' q' : Parse α} (hp : Follows K E p q)
    (hq : Follows K E p' q') : Follows K E (if c then p else p') (if c then q else q') := by
  split
  · exact hp
  · exact hq

/-- A rule that looks at less may be taken for one that looks ahead. -/
theorem looking (h : Follows K (K.Beyond ahead) p q) : Follows K (K.Beyond true) p q :=
  h.mono fun _ _ hbeyond => hbeyond.ahead

/-- The diagnostic that is handed over excuses the run as it would at the end. -/
theorem attempt [Shift γ] {E : γ → State → Prop} {p q : Parse γ} (h : Follows K E p q) :
    Follows K
      (fun r s => match r with
        | .ok a => E a s
        | .error d => K.bad d ∨ ¬ K.shown s.pos)
      (attempt p) (attempt q) := by
  constructor
  · exact Relates.attempt h.grows
  · intro s t hst
    have hrun := h.run hst
    unfold Parse.attempt
    generalize p s = o at hrun ⊢
    generalize q t = o' at hrun ⊢
    cases hrun with
    | @ok a b _ _ hab hst' =>
      obtain rfl : b = Shift.shift K.offset a := hab
      exact .ok rfl hst'
    -- an error on both sides is a value on both sides
    | error hst' => exact .ok rfl hst'
    | excused hex =>
      refine .excused ?_
      cases o with
      | ok a u => exact hex
      | error d u => exact or_assoc.mpr hex
      | fault f u => trivial

end Follows

/-- A rule that has a value passes a token and looks no further than that. -/
structure Closes (K : Link) (p q : Parse α) : Prop where
  follows : Follows K (K.Beyond false) p q
  passes : ∀ {s a t}, p s = .ok a t → s.pos < t.pos

namespace Closes

theorem looking (h : Closes K p q) : Follows K (K.Beyond true) p q :=
  h.follows.looking

/-- Behind a rule that closes the rest need not look at anything. -/
theorem andThen (h : Closes K p q)
    (hnext : ∀ a b, Moved K.offset a b → Follows K (K.Beyond false) (next a) (next' b)) :
    Closes K (p >>= next) (q >>= next') where
  follows := h.follows.bind hnext
  passes {s b u} hrun := by
    obtain ⟨a, t, hp, hnext'⟩ := exists_of_bind hrun
    have ht := Follows.grows_next hnext a t
    rw [hnext'] at ht
    exact Nat.lt_of_lt_of_le (h.passes hp) ht.pos

theorem map {f : α → β} (h : Closes K p q)
    (hf : ∀ a b, Moved K.offset a b → Moved K.offset (f a) (f b)) :
    Closes K (f <$> p) (f <$> q) := by
  rw [map_eq_pure_bind, map_eq_pure_bind]
  refine h.andThen ?_
  intro a b hab
  exact Follows.pure (hf a b hab)

end Closes

/-- A rule that passes a token leaves behind it what was looked at before. -/
theorem Closes.excused (h : Closes K p q) (hs : ¬ K.shown s.pos) :
    K.Excused (K.Beyond false) (p s) := by
  have hgrows := h.follows.grows s
  cases hrun : p s with
  | ok a t => exact .inl ⟨s.pos, h.passes hrun, hs⟩
  | error d t =>
    rw [hrun] at hgrows
    exact .inr (.inl fun ht => hs (K.shown_of_le hgrows.pos ht))
  | fault f t => trivial

namespace Follows

theorem closeWith (h : Follows K E p q)
    (hnext : ∀ a b, Moved K.offset a b → Closes K (next a) (next' b))
    (hpass : ∀ a s, s.Valid → Grows s (next a s).state → E a s →
      K.Excused (K.Beyond false) (next a s)) :
    Closes K (p >>= next) (q >>= next') where
  follows := h.bindWith (fun a b hab => (hnext a b hab).follows) hpass
  passes {s b u} hrun := by
    have hs := h.grows s
    obtain ⟨a, t, hp, hnext'⟩ := exists_of_bind hrun
    obtain ⟨a', ha⟩ := Moves.total K.offset a
    rw [hp] at hs
    exact Nat.lt_of_le_of_lt hs.pos ((hnext a a' ha).passes hnext')

theorem close (h : Follows K (K.Beyond true) p q)
    (hnext : ∀ a b, Moved K.offset a b → Closes K (next a) (next' b)) :
    Closes K (p >>= next) (q >>= next') := by
  refine h.closeWith hnext ?_
  intro a s _ _ hbeyond
  obtain ⟨b, hab⟩ := Moves.total K.offset a
  exact (hnext a b hab).excused hbeyond.not_shown

end Follows

end

section

variable [Shift α] [Shift β] {round round' : α → Parse (Round α β)}
  {E : Round α β → State → Prop} {E' : β → State → Prop}

namespace Follows

/-- The second run may have more rounds. -/
theorem loopForWith
    (hround : ∀ a, Follows K E (round a) (round' (Shift.shift K.offset a)))
    (hagain : ∀ a s, E (.again a) s → K.Beyond true a s) (hdone : ∀ b s, E (.done b) s → E' b s)
    (hE' : ∀ b s, K.Beyond true b s → E' b s) (rounds : Nat) :
    ∀ {rounds' : Nat} (a : α), rounds ≤ rounds' →
      Follows K E' (loopFor round rounds a) (loopFor round' rounds' (Shift.shift K.offset a)) := by
  -- the rounds of the first run are counted; where they run out it ends in a fault
  induction rounds with
  | zero =>
    intro rounds' a _
    exact raise _ _
  | succ rounds ih =>
    rintro (_ | rounds') a hle
    · exact absurd hle (Nat.not_succ_le_zero _)
    have hle' : rounds ≤ rounds' := Nat.le_of_succ_le_succ hle
    unfold Parse.loopFor
    refine (hround a).bindWith ?_ ?_
    · rintro (a' | r) _ rfl
      · exact ih a' hle'
      · exact pure rfl
    · rintro (a' | r) s _ hgrows hex
      · exact (Link.Excused.of_beyond (hagain a' s hex) hgrows).mono hE'
      · exact .inl (hdone r s hex)

theorem loopWith (hround : ∀ a, Follows K E (round a) (round' (Shift.shift K.offset a)))
    (hagain : ∀ a s, E (.again a) s → K.Beyond true a s) (hdone : ∀ b s, E (.done b) s → E' b s)
    (hE' : ∀ b s, K.Beyond true b s → E' b s) (a : α) :
    Follows K E' (loop round a) (loop round' (Shift.shift K.offset a)) where
  grows s := (loopForWith hround hagain hdone hE' _ a (Nat.le_refl _)).grows s
  -- each run has as many rounds as it has tokens left, and the second has no fewer tokens
  run hst :=
    (loopForWith hround hagain hdone hE' _ a (Nat.succ_le_succ hst.remaining_le)).run hst

theorem loop
    (hround : ∀ a, Follows K (K.Beyond true) (round a) (round' (Shift.shift K.offset a))) (a : α) :
    Follows K (K.Beyond true) (loop round a) (loop round' (Shift.shift K.offset a)) :=
  loopWith hround (fun _ _ h => h) (fun _ _ h => h) (fun _ _ h => h) a

/-- A loop that collects what its rounds read. -/
theorem collectWith {round round' : Array α → Parse (Round (Array α) β)}
    {E : Round (Array α) β → State → Prop}
    (hround : ∀ as, Follows K E (round as) (round' (Shift.shift K.offset as)))
    (hagain : ∀ as s, E (.again as) s → K.Beyond true as s)
    (hdone : ∀ b s, E (.done b) s → E' b s) (hE' : ∀ b s, K.Beyond true b s → E' b s) :
    Follows K E' (Parse.loop round #[]) (Parse.loop round' #[]) := by
  have h := loopWith hround hagain hdone hE' #[]
  rwa [Shift.shift_empty] at h

theorem collect {round round' : Array α → Parse (Round (Array α) β)}
    (hround : ∀ as, Follows K (K.Beyond true) (round as) (round' (Shift.shift K.offset as))) :
    Follows K (K.Beyond true) (Parse.loop round #[]) (Parse.loop round' #[]) :=
  collectWith hround (fun _ _ h => h) (fun _ _ h => h) (fun _ _ h => h)

end Follows

end

end FrontEnd.Grammar
