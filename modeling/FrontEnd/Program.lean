import FrontEnd.Grammar.Nesting
import FrontEnd.Lexical.Scan

/-! Reading whole programs, from tokens or from a source text. -/
namespace FrontEnd

namespace Grammar

open Parse

/-- Reads a statement behind those before it. After an error reading goes on at the next place
where a statement may start. -/
def programRound (stmts : Array Stmt) : Parse (Round (Array Stmt) (Array Stmt)) := do
  if ← hasTokens then
    match ← attempt (statement false) with
    | .ok (some s) => pure (.again (stmts.push s))
    | .ok none => pure (.done stmts)
    | .error d =>
      record d
      recover
      pure (.again stmts)
  else pure (.done stmts)

/-- The statements up to the end mark. A token that no statement starts with ends them too, and
is reported. -/
def program : Parse (List Stmt) := do
  let stmts ← loop programRound #[]
  let token ← current
  if token.kind = .endMark then pure stmts.toList
  else
    record (← diagnosticHere (.expectedEnd token.text))
    pure stmts.toList

end Grammar

namespace Program

/-- The program that a list of tokens says, or everything that is wrong with it, in the order in
which it was found. -/
def ofTokens (tokens : List Token) : Except (Failure (List Diagnostic)) Program :=
  match Grammar.program (.ofTokens tokens) with
  | .ok body s => if s.errors.isEmpty then .ok (.ofBody body) else .error (.refused s.errors)
  | .error d s => .error (.refused (s.errors ++ [d]))
  | .fault f _ => .error (.fault f)

end Program

/-- Why a source text is no program. -/
inductive SourceError where
  | lexical (error : LexicalError)
  | grammatical (diagnostics : List Diagnostic)
deriving DecidableEq

namespace SourceError

def message : SourceError → String
  | .lexical e => e.message
  | .grammatical ds => Diagnostic.report ds

end SourceError

namespace Program

/-- The program that a source text says. -/
def ofSource (source : String) : Except (Failure SourceError) Program :=
  match Token.ofSource source with
  | .error (.refused e) => .error (.refused (.lexical e))
  | .error (.fault f) => .error (.fault f)
  | .ok tokens =>
    match ofTokens tokens with
    | .ok program => .ok program
    | .error (.refused ds) => .error (.refused (.grammatical ds))
    | .error (.fault f) => .error (.fault f)

end Program

end FrontEnd
