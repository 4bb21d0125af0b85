import FrontEnd.Grammar.Nesting

/-! Sessions: one state under any sequence of calls. A call is a rule, a mark, a return to a mark
that was taken at any time before, or a nesting level that is opened or closed. -/
namespace FrontEnd.Grammar

open Parse

/-- The rules that a session can run, with their arguments. -/
inductive Command where
  | advance
  | accept (kind : TokenKind)
  | expect (kind : TokenKind) (expected : String)
  | expectSemicolon
  | expectName (context : String)
  | record (diagnostic : Diagnostic)
  | recover
  | statement (inBlock : Bool)
  | statementOf (form : StatementForm) (inBlock : Bool)
  | expressionStatement (expr : Expr) (start : Nat)
  | expression
  | requiredExpression (context : String)
  | block
  | signature
  | path (segment : Ident) (place : PathPlace)

/-- The rule of a command. Its value is of no further use. -/
def Command.rule : Command → Parse Unit
  | .advance => Functor.discard Grammar.advance
  | .accept kind => Functor.discard (Grammar.accept kind)
  | .expect kind expected => Functor.discard (Grammar.expect kind expected)
  | .expectSemicolon => Functor.discard Grammar.expectSemicolon
  | .expectName context => Functor.discard (Grammar.expectName context)
  | .record d => Grammar.record d
  | .recover => Grammar.recover
  | .statement inBlock => Functor.discard (Grammar.statement inBlock)
  | .statementOf form inBlock => Functor.discard (Grammar.statementOf form inBlock)
  | .expressionStatement e start => Functor.discard (Grammar.expressionStatement e start)
  | .expression => Functor.discard Grammar.expression
  | .requiredExpression context => Functor.discard (Grammar.requiredExpression context)
  | .block => Functor.discard Grammar.block
  | .signature => Functor.discard Grammar.signature
  | .path segment place => Functor.discard (Grammar.path segment place)

/-- The state that is left where there was no fault. -/
def Outcome.left? {α : Type} : Outcome α → Option State
  | .ok _ s => some s
  | .error _ s => some s
  | .fault _ _ => none

/-- One call. A mark is named by its place among the marks that were taken. -/
inductive Call where
  | run (command : Command)
  | mark
  | rewind (mark : Nat)
  | opens
  | closes

structure Session where
  state : State
  /-- The marks taken so far, the oldest first. -/
  marks : List Mark
  /-- How many levels were opened by a call and not closed again. -/
  opened : Nat

namespace Session

/-- The session before the first call. -/
def start (tokens : List Token) : Session :=
  ⟨.ofTokens tokens, [], 0⟩

/-- The session behind a call. There is none behind a fault, and no call goes back to a mark that
was not taken or closes a level that is not open. Where no level is left, opening one is refused
and changes nothing. -/
def step (c : Session) : Call → Option Session
  | .run command => (command.rule c.state).left?.map fun s => { c with state := s }
  | .mark => some { c with marks := c.marks ++ [⟨c.state.pos, c.state.errors.length⟩] }
  | .rewind i =>
    c.marks[i]?.map fun m =>
      { c with state :=
        { c.state with pos := m.pos, errors := c.state.errors.take m.errors } }
  | .opens =>
    if maxDepth ≤ c.state.depth then some c
    else
      some { c with state := { c.state with depth := c.state.depth + 1 }, opened := c.opened + 1 }
  | .closes =>
    if c.opened = 0 then none
    else
      some { c with state := { c.state with depth := c.state.depth - 1 }, opened := c.opened - 1 }

/-- The session behind a sequence of calls. -/
def run (c : Session) (calls : List Call) : Option Session :=
  calls.foldlM step c

end Session

end FrontEnd.Grammar
