import FrontEnd.Proofs.Parallel.Block

/-! What a run sees of its tokens. An end mark is an end mark, whatever it says; of any other token
a rule sees kind, value and radix; and it never looks behind the first end mark. Two runs on streams
that look the same in this sense do the same, at the same places. -/
namespace FrontEnd

/-- The lexeme as rules see it. -/
def Lexeme.seen (lexeme : Lexeme) : Lexeme :=
  if lexeme.kind = .endMark then .endMark else lexeme

namespace Lexeme

theorem seen_of_endMark {lexeme : Lexeme} (h : lexeme.kind = .endMark) :
    lexeme.seen = .endMark :=
  if_pos h

theorem seen_of_ne {lexeme : Lexeme} (h : lexeme.kind ≠ .endMark) : lexeme.seen = lexeme :=
  if_neg h

/-- What depends on the kind alone at an end mark depends on what is seen. -/
theorem apply_seen {α : Type} (f : Lexeme → α)
    (h : ∀ lexeme : Lexeme, lexeme.kind = .endMark → f lexeme = f .endMark) (lexeme : Lexeme) :
    f lexeme.seen = f lexeme := by
  by_cases hk : lexeme.kind = .endMark
  · rw [seen_of_endMark hk, h lexeme hk]
  · rw [seen_of_ne hk]

@[simp] theorem kind_seen (lexeme : Lexeme) : lexeme.seen.kind = lexeme.kind :=
  apply_seen kind (fun _ hk => hk) lexeme

@[simp] theorem text_seen (lexeme : Lexeme) : lexeme.seen.text = lexeme.text := by
  apply apply_seen text
  intro lexeme hk
  simp [text, hk, endMark]

@[simp] theorem keyword?_seen (lexeme : Lexeme) : lexeme.seen.keyword? = lexeme.keyword? := by
  apply apply_seen keyword?
  intro lexeme hk
  simp [keyword?, hk, endMark]

@[simp] theorem isKeyword_seen (lexeme : Lexeme) (keyword : Keyword) :
    lexeme.seen.isKeyword keyword = lexeme.isKeyword keyword := by
  simp [isKeyword]

@[simp] theorem opensStatement_seen (lexeme : Lexeme) :
    lexeme.seen.opensStatement = lexeme.opensStatement := by
  simp [opensStatement]

@[simp] theorem ofLexeme?_seen (lexeme : Lexeme) (fixity : Fixity) :
    Operation.ofLexeme? lexeme.seen fixity = Operation.ofLexeme? lexeme fixity := by
  cases fixity with
  | before => simp [Operation.ofLexeme?, Operation.unary?]
  | between => simp [Operation.ofLexeme?, Operation.binary?]

@[simp] theorem bindingPower?_seen (lexeme : Lexeme) :
    lexeme.seen.bindingPower? = lexeme.bindingPower? := by
  have h := ofLexeme?_seen lexeme .between
  simp only [Operation.ofLexeme?] at h
  simp only [bindingPower?, h]

@[simp] theorem literal_seen (lexeme : Lexeme) :
    LiteralKind.ofLexeme? lexeme.seen = LiteralKind.ofLexeme? lexeme := by
  apply apply_seen LiteralKind.ofLexeme?
  intro lexeme hk
  simp [LiteralKind.ofLexeme?, hk, endMark]

end Lexeme

/-- The tokens stand at the same place and look the same. -/
structure Token.Alike (a b : Token) : Prop where
  index : b.index = a.index
  seen : b.seen = a.seen

namespace Token.Alike

variable {a b : Token} (h : a.Alike b)

include h

theorem apply {α : Type} (f : Lexeme → α) (hf : ∀ lexeme : Lexeme, f lexeme.seen = f lexeme) :
    f b.toLexeme = f a.toLexeme := by
  rw [← hf, h.seen, hf]

theorem kind : b.kind = a.kind :=
  h.apply Lexeme.kind Lexeme.kind_seen

theorem text : b.text = a.text :=
  h.apply Lexeme.text Lexeme.text_seen

theorem keyword? : b.keyword? = a.keyword? :=
  h.apply Lexeme.keyword? Lexeme.keyword?_seen

theorem isKeyword (keyword : Keyword) : b.isKeyword keyword = a.isKeyword keyword :=
  h.apply (·.isKeyword keyword) fun lexeme => lexeme.isKeyword_seen keyword

theorem opensStatement : b.opensStatement = a.opensStatement :=
  h.apply Lexeme.opensStatement Lexeme.opensStatement_seen

theorem operation (fixity : Fixity) :
    Operation.ofLexeme? b.toLexeme fixity = Operation.ofLexeme? a.toLexeme fixity :=
  h.apply (Operation.ofLexeme? · fixity) fun lexeme => lexeme.ofLexeme?_seen fixity

theorem unary? : Operation.unary? b.toLexeme = Operation.unary? a.toLexeme :=
  h.operation .before

theorem bindingPower? : b.bindingPower? = a.bindingPower? :=
  h.apply Lexeme.bindingPower? Lexeme.bindingPower?_seen

theorem literal : LiteralKind.ofLexeme? b.toLexeme = LiteralKind.ofLexeme? a.toLexeme :=
  h.apply LiteralKind.ofLexeme? Lexeme.literal_seen

/-- Only an end mark hides its value. -/
theorem value (hk : a.kind ≠ .endMark) : b.value = a.value := by
  have hseen := h.seen
  rw [Lexeme.seen_of_ne hk, Lexeme.seen_of_ne (by rwa [h.kind])] at hseen
  rw [hseen]

theorem ident (hk : a.kind ≠ .endMark) : Ident.ofToken b = Ident.ofToken a := by
  simp only [Ident.ofToken, h.value hk, h.keyword?, h.index]

end Token.Alike

namespace Grammar

open Parse

variable {α β : Type}

/-- The states have the same cursor, and what they see up to the first end mark is the same. The
first run has no more tokens behind its end mark than the second one. -/
structure Alike (d : Nat) (s t : State) : Prop where
  seen : ∀ i ≤ s.stream.limit, (t.lexeme i).seen = (s.lexeme i).seen
  size : s.stream.tokens.size ≤ t.stream.tokens.size
  pos : t.pos = s.pos
  errors : t.errors = s.errors
  depth : s.depth = d
  depth' : t.depth = d
  valid : s.Valid

/-- The two runs end in the same way, with values as `R` says. Where the first one has a fault
nothing is said about the second. -/
inductive Agree (R : α → α → Prop) (d : Nat) : Outcome α → Outcome α → Prop where
  | ok {a b : α} {s t : State} (hab : R a b) (hst : Alike d s t) :
      Agree R d (.ok a s) (.ok b t)
  | error {e : Diagnostic} {s t : State} (hst : Alike d s t) :
      Agree R d (.error e s) (.error e t)
  | fault {f : Fault} {s : State} {o : Outcome α} : Agree R d (.fault f s) o

/-- From states that look the same the two rules do the same. -/
def Mirrors (R : α → α → Prop) (d : Nat) (p q : Parse α) : Prop :=
  ∀ ⦃s t : State⦄, Alike d s t → Agree R d (p s) (q t)

namespace Alike

variable {d : Nat} {s t : State} (h : Alike d s t)

include h

theorem kind_eq {i : Nat} (hi : i ≤ s.stream.limit) :
    (t.stream.get i).kind = (s.stream.get i).kind := by
  have hkind := congrArg Lexeme.kind (h.seen i hi)
  rw [Lexeme.kind_seen, Lexeme.kind_seen] at hkind
  exact hkind

theorem limit : t.stream.limit = s.stream.limit := by
  apply Nat.le_antisymm
  · apply Nat.le_of_not_lt
    intro hlt
    apply TokenStream.kind_of_lt_limit hlt
    rw [h.kind_eq (Nat.le_refl _), s.stream.kind_limit]
  · apply Nat.le_of_not_lt
    intro hlt
    apply TokenStream.kind_of_lt_limit hlt
    rw [← h.kind_eq (Nat.le_of_lt hlt), t.stream.kind_limit]

theorem get {i : Nat} (hi : i ≤ s.stream.limit) :
    (s.stream.get i).Alike (t.stream.get i) where
  index := by
    rw [TokenStream.index_get hi, TokenStream.index_get (by rwa [h.limit])]
  seen := h.seen i hi

theorem current : s.current.Alike t.current := by
  have hcurrent := h.get (i := s.pos) h.valid
  unfold State.current
  rwa [h.pos]

theorem next (hk : s.current.kind ≠ .endMark) : Alike d s.next t.next where
  seen := h.seen
  size := h.size
  pos := by simp [h.pos]
  errors := h.errors
  depth := h.depth
  depth' := h.depth'
  valid := h.valid.next hk

theorem record (e : Diagnostic) :
    Alike d { s with errors := s.errors ++ [e] } { t with errors := t.errors ++ [e] } where
  seen := h.seen
  size := h.size
  pos := h.pos
  errors := by simp [h.errors]
  depth := h.depth
  depth' := h.depth'
  valid := h.valid

theorem withDepth (d' : Nat) :
    Alike d' { s with depth := d' } { t with depth := d' } where
  seen := h.seen
  size := h.size
  pos := h.pos
  errors := h.errors
  depth := rfl
  depth' := rfl
  valid := h.valid

theorem remaining_le : s.remaining ≤ t.remaining := by
  have hsize := h.size
  simp only [State.remaining, h.pos]
  omega

end Alike

namespace Mirrors

variable {d : Nat} {R : α → α → Prop} {R' : β → β → Prop} {p q p' q' : Parse α}
  {next next' : α → Parse β}

theorem pureOf {a b : α} (h : R a b) : Mirrors R d (pure a) (pure b) :=
  fun _ _ hst => .ok h hst

theorem pure (a : α) : Mirrors Eq d (pure a) (pure a) :=
  pureOf rfl

theorem fail (e : Diagnostic) : Mirrors R d (fail e) (fail e) :=
  fun _ _ hst => .error hst

theorem raise (f : Fault) : Mirrors R d (raise f) q :=
  fun _ _ _ => .fault

theorem lift (x : Except Fault α) : Mirrors Eq d (lift x) (lift x) := by
  cases x with
  | ok a => exact pure a
  | error f => exact raise f

theorem bindOf (hp : Mirrors R d p q)
    (hnext : ∀ a b, R a b → Mirrors R' d (next a) (next' b)) :
    Mirrors R' d (p >>= next) (q >>= next') := by
  intro s t hst
  have hrun := hp hst
  rw [bind_apply, bind_apply]
  generalize p s = o at hrun ⊢
  generalize q t = o' at hrun ⊢
  cases hrun with
  | ok hab huv => exact hnext _ _ hab huv
  | error huv => exact .error huv
  | fault => exact .fault

theorem bind (hp : Mirrors Eq d p q)
    (hnext : ∀ a, Mirrors R' d (next a) (next' a)) :
    Mirrors R' d (p >>= next) (q >>= next') := by
  apply hp.bindOf
  intro a b hab
  rw [← hab]
  exact hnext a

theorem mapOf {f : α → β} (hp : Mirrors R d p q) (hf : ∀ a b, R a b → R' (f a) (f b)) :
    Mirrors R' d (f <$> p) (f <$> q) := by
  rw [map_eq_pure_bind, map_eq_pure_bind]
  apply hp.bindOf
  intro a b hab
  exact pureOf (hf a b hab)

theorem map (f : α → β) (hp : Mirrors Eq d p q) : Mirrors Eq d (f <$> p) (f <$> q) :=
  hp.mapOf fun _ _ hab => congrArg f hab

theorem ite {c : Prop} [Decidable c] (h : Mirrors R d p q) (h' : Mirrors R d p' q') :
    Mirrors R d (if c then p else p') (if c then q else q') := by
  split
  · exact h
  · exact h'

theorem attempt (h : Mirrors Eq d p q) : Mirrors Eq d (attempt p) (attempt q) := by
  intro s t hst
  have hrun := h hst
  unfold Parse.attempt
  generalize p s = o at hrun ⊢
  generalize q t = o' at hrun ⊢
  cases hrun with
  | ok hab huv =>
    rw [hab]
    exact .ok rfl huv
  | error huv => exact .ok rfl huv
  | fault => exact .fault

/-- The second run may have more rounds, which it does not need. -/
theorem loopFor {round round' : α → Parse (Round α β)}
    (hround : ∀ a, Mirrors Eq d (round a) (round' a)) (rounds : Nat) :
    ∀ {rounds' : Nat} (a : α), rounds ≤ rounds' →
      Mirrors Eq d (loopFor round rounds a) (loopFor round' rounds' a) := by
  induction rounds with
  | zero =>
    intro rounds' a _
    exact raise _
  | succ rounds ih =>
    intro rounds' a hle
    obtain ⟨rounds', rfl⟩ : ∃ n, rounds' = n + 1 := ⟨rounds' - 1, by omega⟩
    unfold Parse.loopFor
    apply (hround a).bind
    intro r
    cases r with
    | again a => exact ih a (by omega)
    | done b => exact pure b

theorem loop {round round' : α → Parse (Round α β)}
    (hround : ∀ a, Mirrors Eq d (round a) (round' a)) (a : α) :
    Mirrors Eq d (loop round a) (loop round' a) := by
  intro s t hst
  exact loopFor hround _ a (Nat.succ_le_succ hst.remaining_le) hst

end Mirrors

end Grammar

end FrontEnd
