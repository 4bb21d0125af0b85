import FrontEnd.Grammar.Nesting
import FrontEnd.Proofs.Relates

/-! Paths and import statements are read without a word: whether the rules have a value or stop,
they record nothing. As for the rules that forget nothing, the property is a class, found for the
rest of a rule wherever that is cut. -/
namespace FrontEnd.Grammar

open Parse

variable {α β : Type}

/-- The rule leaves the recorded diagnostics as they were, however it ends. -/
class Tacit (p : Parse α) : Prop where
  errors_eq : ∀ s, (p s).state.errors = s.errors

namespace Tacit

theorem of_ok {p : Parse α} [hp : Tacit p] {s t : State} {a : α} (h : p s = .ok a t) :
    t.errors = s.errors := by
  have hs := hp.errors_eq s
  rwa [h] at hs

instance pure (a : α) : Tacit (pure a : Parse α) :=
  ⟨fun _ => rfl⟩

instance fail (d : Diagnostic) : Tacit (fail d : Parse α) :=
  ⟨fun _ => rfl⟩

instance raise (f : Fault) : Tacit (raise f : Parse α) :=
  ⟨fun _ => rfl⟩

instance bind {p : Parse α} {next : α → Parse β} [hp : Tacit p] [hnext : ∀ a, Tacit (next a)] :
    Tacit (p >>= next) :=
  ⟨Relates.bind (R := fun s t => t.errors = s.errors) (fun h h' => h'.trans h) hp.errors_eq
    fun a => (hnext a).errors_eq⟩

instance map {p : Parse α} {f : α → β} [hp : Tacit p] : Tacit (f <$> p) :=
  ⟨Relates.map (R := fun s t => t.errors = s.errors) hp.errors_eq⟩

instance ite {c : Prop} [Decidable c] {p q : Parse α} [hp : Tacit p] [hq : Tacit q] :
    Tacit (if c then p else q) := by
  split
  · exact hp
  · exact hq

instance loop {round : α → Parse (Round α β)} [hround : ∀ a, Tacit (round a)] (a : α) :
    Tacit (loop round a) where
  errors_eq s :=
    Relates.loopFor (R := fun s t => t.errors = s.errors) (fun _ => rfl) (fun h h' => h'.trans h)
      (fun a => (hround a).errors_eq) (s.remaining + 1) a s

instance nested {p : Parse α} [hp : Tacit p] : Tacit (nested p) :=
  ⟨Relates.nested (R := fun s t => t.errors = s.errors) (fun _ => rfl) (fun _ _ h => h)
    hp.errors_eq⟩

instance current : Tacit current :=
  ⟨fun _ => rfl⟩

instance rangeFrom (start : Nat) : Tacit (rangeFrom start) :=
  ⟨fun _ => rfl⟩

instance advance : Tacit advance where
  errors_eq s := by
    unfold Grammar.advance
    split <;> rfl

instance isAt (kind : TokenKind) : Tacit (isAt kind) :=
  ⟨fun _ => rfl⟩

instance failHere (cause : DiagnosticCause) : Tacit (failHere cause : Parse α) :=
  ⟨fun _ => rfl⟩

instance accept (kind : TokenKind) : Tacit (accept kind) := by
  unfold Grammar.accept
  infer_instance

/-- Whether a token is passed or not, what follows records nothing. -/
theorem afterAccept {kind : TokenKind} {next : Option Token → Parse β} (hnone : Tacit (next none))
    (hsome : ∀ token, Tacit (next (some token))) : Tacit (Grammar.accept kind >>= next) := by
  refine @Tacit.bind _ _ _ _ _ fun token? => ?_
  cases token? with
  | none => exact hnone
  | some token => exact hsome token

instance expect (kind : TokenKind) (expected : String) : Tacit (expect kind expected) := by
  unfold Grammar.expect
  infer_instance

instance expectSemicolon : Tacit expectSemicolon := by
  unfold Grammar.expectSemicolon
  infer_instance

instance expectName (context : String) : Tacit (expectName context) := by
  unfold Grammar.expectName
  refine @Tacit.bind _ _ _ _ _ fun token => ?_
  split <;> infer_instance

instance pathAlias (allowed : Bool) : Tacit (pathAlias allowed) := by
  unfold Grammar.pathAlias
  infer_instance

instance pathAliasIn (place : PathPlace) (allowed : Bool) : Tacit (pathAliasIn place allowed) := by
  cases place with
  | importing => exact Tacit.pathAlias allowed
  | expression => exact Tacit.pure none

instance resourceImport (start : Nat) : Tacit (resourceImport start) := by
  unfold Grammar.resourceImport
  infer_instance

end Tacit

namespace Level

variable {g : Level} [hg : ∀ segment place, Tacit (g.path segment place)]

instance tacit_groupEntry (place : PathPlace) (segment : Ident) :
    Tacit (g.groupEntry place segment) := by
  unfold Level.groupEntry
  exact .afterAccept inferInstance fun _ => hg segment place

instance tacit_groupRound (place : PathPlace) (entries : Array Path) :
    Tacit (g.groupRound place entries) := by
  unfold Level.groupRound
  have hrest : ∀ entry, Tacit (accept .comma >>= fun comma? => match comma? with
      | none => pure (Round.done (entries.push entry))
      | some _ => accept .closeCurly >>= fun close? => match close? with
        | some close => fail ⟨.trailingComma, .single close.index⟩
        | none => pure (Round.again (entries.push entry))) := fun entry =>
    .afterAccept inferInstance fun _ => .afterAccept inferInstance inferInstance
  infer_instance

instance tacit_group (place : PathPlace) : Tacit (g.group place) := by
  unfold Level.group
  infer_instance

instance tacit_pathTarget (place : PathPlace) : Tacit (g.pathTarget place) := by
  unfold Level.pathTarget
  refine @Tacit.bind _ _ _ _ _ fun token => ?_
  split
  · refine @Tacit.bind _ _ _ _ _ fun item => ?_
    exact .afterAccept inferInstance inferInstance
  · infer_instance
  · infer_instance
  · infer_instance

instance tacit_pathFrom (segment : Ident) (place : PathPlace) :
    Tacit (g.pathFrom segment place) := by
  unfold Level.pathFrom
  infer_instance

instance tacit_path (room : Nat) :
    ∀ segment place, Tacit ((withRoom room).path segment place) := by
  induction room with
  | zero =>
    intro _ _
    exact Tacit.failHere _
  | succ room ih =>
    intro segment place
    exact Tacit.nested

instance tacit_pathImport (start : Nat) : Tacit (g.pathImport start) := by
  unfold Level.pathImport
  infer_instance

instance tacit_importStatement : Tacit g.importStatement := by
  unfold Level.importStatement
  refine @Tacit.bind _ _ _ _ _ fun opening => ?_
  refine @Tacit.bind _ _ _ _ _ fun token => ?_
  split <;> infer_instance

end Level

end FrontEnd.Grammar
