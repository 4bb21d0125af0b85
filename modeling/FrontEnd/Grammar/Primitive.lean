import FrontEnd.Grammar.Parse
import FrontEnd.Tree.Basic

/-! The steps that grammar rules are made of: looking at the cursor, passing tokens, reporting,
going back, nesting, and finding the next place to go on after an error. -/
namespace FrontEnd.Grammar

open Parse

variable {α : Type}

/-- The token at the cursor. -/
def current : Parse Token := fun s =>
  .ok s.current s

def position : Parse Nat := fun s =>
  .ok s.pos s

/-- The range from a token up to the cursor. -/
def rangeFrom (start : Nat) : Parse TokenRange := fun s =>
  .ok (.clamped start s.pos) s

/-- The range between two tokens, which have to be in order. -/
def rangeBetween (start stop : Nat) : Parse TokenRange :=
  lift (TokenRange.checked start stop)

/-- Passes the token at the cursor, unless it is the end mark, and returns it. -/
def advance : Parse Token := fun s =>
  if s.current.kind = .endMark then .ok s.current s
  else .ok s.current { s with pos := s.pos + 1 }

def isAt (kind : TokenKind) : Parse Bool := do
  return (← current).kind == kind

def isAtKeyword (keyword : Keyword) : Parse Bool := do
  return (← current).isKeyword keyword

/-- Whether the end mark is still ahead. -/
def hasTokens : Parse Bool := do
  return !(← isAt .endMark)

/-- A diagnostic about the token at the cursor. -/
def diagnosticHere (cause : DiagnosticCause) : Parse Diagnostic := do
  return ⟨cause, .single (← current).index⟩

/-- Stops with a diagnostic about the token at the cursor. -/
def failHere (cause : DiagnosticCause) : Parse α := do
  fail (← diagnosticHere cause)

/-- Passes the token at the cursor if it is of the given kind. -/
def accept (kind : TokenKind) : Parse (Option Token) := do
  if ← isAt kind then some <$> advance else pure none

/-- Passes a token of the given kind, which has to be there. -/
def expect (kind : TokenKind) (expected : String) : Parse Token := do
  let token ← current
  if token.kind = kind then advance else failHere (.unexpectedToken expected token.text)

/-- Passes the semicolon that closes a statement. -/
def expectSemicolon : Parse Token := do
  let token ← current
  if token.kind = .semicolon then advance else failHere (.missingSemicolon token.text)

/-- Passes a name, which is a word that is no keyword. The context says what the name is for. -/
def expectName (context : String) : Parse Ident := do
  let token ← expect .word context
  match token.keyword? with
  | some keyword => fail ⟨.keywordAsName keyword context, .single token.index⟩
  | none => pure (.ofToken token)

/-- A place to go back to: the cursor, and how many diagnostics were recorded. -/
structure Mark where
  pos : Nat
  errors : Nat
deriving DecidableEq

def mark : Parse Mark := fun s =>
  .ok ⟨s.pos, s.errors.length⟩ s

/-- Goes back to a mark and forgets the diagnostics recorded since. -/
def rewind (m : Mark) : Parse Unit := fun s =>
  .ok () { s with pos := m.pos, errors := s.errors.take m.errors }

def record (d : Diagnostic) : Parse Unit := fun s =>
  .ok () { s with errors := s.errors ++ [d] }

/-- The diagnostics recorded so far. -/
def recorded : Parse (List Diagnostic) := fun s =>
  .ok s.errors s

/-- Stops because no further level may be opened. -/
def tooDeep : Parse α :=
  failHere (.nestingTooDeep maxDepth)

/-- Runs a rule one level deeper. The level is closed again however the rule ends. -/
def nested (p : Parse α) : Parse α := fun s =>
  if maxDepth ≤ s.depth then tooDeep s
  else
    match p { s with depth := s.depth + 1 } with
    | .ok a s' => .ok a { s' with depth := s'.depth - 1 }
    | .error d s' => .error d { s' with depth := s'.depth - 1 }
    | .fault f s' => .fault f { s' with depth := s'.depth - 1 }

/-- The token before the cursor. -/
def previous : Parse Token := fun s =>
  match s.pos with
  | 0 => .fault .outOfRange s
  | i + 1 =>
    match s.stream.tokens[i]? with
    | some token => .ok token s
    | none => .fault .outOfRange s

/-- One token of `recover`: stops behind a semicolon, and before a closing brace, a keyword that
opens a statement, and the end mark. -/
def recoverRound (_ : Unit) : Parse (Round Unit Unit) := do
  let token ← current
  if token.kind = .endMark then pure (.done ())
  else
    let before ← previous
    if before.kind = .semicolon ∨ token.kind = .closeCurly ∨ token.opensStatement = true then
      pure (.done ())
    else
      let _ ← advance
      pure (.again ())

/-- Moves to the next place where a statement may start. A closing brace is such a place; any
other token is passed. What was passed is a range of tokens, and its ends have to be in order. -/
def recover : Parse Unit := do
  let start ← position
  if ← isAt .closeCurly then pure ()
  else
    let _ ← advance
    loop recoverRound ()
    let _skipped ← rangeBetween start (← position)
    pure ()

end FrontEnd.Grammar
