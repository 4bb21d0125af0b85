import FrontEnd.Diagnostic
import FrontEnd.Token.Stream

/-! Grammar rules as functions on the state of a run: a place in a token stream, the diagnostics
recorded so far, and the number of open nesting levels. A rule returns a value, stops with a
diagnostic, or stops with a fault, and leaves a state in each case. -/
namespace FrontEnd.Grammar

/-- The greatest number of nesting levels of expressions, blocks and paths. -/
def maxDepth : Nat := 64

/-- The state of a run. The stream stays as it is; the cursor does not pass its first end mark. -/
structure State where
  stream : TokenStream
  /-- The index of the token at the cursor. -/
  pos : Nat
  /-- The diagnostics recorded so far, the oldest first. -/
  errors : List Diagnostic
  /-- How many nesting levels are open. -/
  depth : Nat

namespace State

/-- The state before the first token of a list. -/
def ofTokens (tokens : List Token) : State :=
  ⟨.ofTokens tokens, 0, [], 0⟩

/-- The token at the cursor. -/
def current (s : State) : Token :=
  s.stream.get s.pos

/-- How many tokens there are from the cursor on. -/
def remaining (s : State) : Nat :=
  s.stream.tokens.size - s.pos

end State

/-- How a rule ends. -/
inductive Outcome (α : Type) where
  | ok (value : α) (state : State)
  | error (diagnostic : Diagnostic) (state : State)
  | fault (fault : Fault) (state : State)

namespace Outcome

/-- The state that was left. -/
def state {α : Type} : Outcome α → State
  | .ok _ s => s
  | .error _ s => s
  | .fault _ s => s

end Outcome

/-- A grammar rule with values of type `α`. -/
def Parse (α : Type) : Type :=
  State → Outcome α

namespace Parse

variable {α β : Type}

/-- Runs a rule, and another one on its value. -/
def andThen (p : Parse α) (next : α → Parse β) : Parse β := fun s =>
  match p s with
  | .ok a s' => next a s'
  | .error d s' => .error d s'
  | .fault f s' => .fault f s'

instance : Monad Parse where
  pure a := fun s => .ok a s
  bind := andThen

@[simp] theorem pure_apply (a : α) (s : State) : (pure a : Parse α) s = .ok a s := rfl

theorem bind_apply (p : Parse α) (next : α → Parse β) (s : State) :
    (p >>= next) s =
      match p s with
      | .ok a s' => next a s'
      | .error d s' => .error d s'
      | .fault f s' => .fault f s' := rfl

theorem map_apply (f : α → β) (p : Parse α) (s : State) :
    (f <$> p) s =
      match p s with
      | .ok a s' => .ok (f a) s'
      | .error d s' => .error d s'
      | .fault e s' => .fault e s' := rfl

protected theorem id_map (p : Parse α) : id <$> p = p := by
  funext s
  rw [map_apply]
  cases p s <;> rfl

protected theorem bind_assoc {γ : Type} (p : Parse α) (q : α → Parse β) (r : β → Parse γ) :
    p >>= q >>= r = p >>= fun a => q a >>= r := by
  funext s
  simp only [bind_apply]
  cases p s <;> rfl

instance : LawfulMonad Parse :=
  LawfulMonad.mk' Parse Parse.id_map (fun _ _ => rfl) Parse.bind_assoc

/-- Stops with a diagnostic. -/
def fail (d : Diagnostic) : Parse α := fun s =>
  .error d s

/-- Stops with a fault. -/
def raise (f : Fault) : Parse α := fun s =>
  .fault f s

/-- The value of a computation, or its fault. -/
def lift : Except Fault α → Parse α
  | .ok a => pure a
  | .error f => raise f

/-- Runs a rule and hands over the diagnostic it stops with, if it stops with one. -/
def attempt (p : Parse α) : Parse (Except Diagnostic α) := fun s =>
  match p s with
  | .ok a s' => .ok (.ok a) s'
  | .error d s' => .ok (.error d) s'
  | .fault f s' => .fault f s'

/-- What one round of a loop decides. -/
inductive Round (α β : Type) where
  | again (next : α)
  | done (result : β)

/-- Repeats a round until it is done, for a limited number of rounds. -/
def loopFor (round : α → Parse (Round α β)) : Nat → α → Parse β
  | 0, _ => raise .stuck
  | rounds + 1, a => do
    match ← round a with
    | .again a => loopFor round rounds a
    | .done b => pure b

/-- Repeats a round until it is done. Every round but the last has to pass a token, so there are
at most as many rounds as tokens are left, and one. -/
def loop (round : α → Parse (Round α β)) (a : α) : Parse β := fun s =>
  loopFor round (s.remaining + 1) a s

end Parse

end FrontEnd.Grammar
