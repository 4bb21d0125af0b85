import FrontEnd.Grammar.Primitive

/-! Headers of functions: the keyword, a name that may be left out, the parameters, and the arrow
before the body. -/
namespace FrontEnd.Grammar

open Parse

structure Signature where
  kind : FunctionKind
  name : Option Ident
  params : List Ident
  /-- The index of the keyword. -/
  start : Nat

/-- A parameter and the comma behind it; without a comma it is the last one. -/
def parameterRound (params : Array Ident) : Parse (Round (Array Ident) (Array Ident)) := do
  if ← isAt .closeParen then pure (.done params)
  else
    let param ← expectName "a parameter name"
    match ← accept .comma with
    | some _ => pure (.again (params.push param))
    | none => pure (.done (params.push param))

/-- The name of a function, which may be left out. -/
def functionName : Parse (Option Ident) := do
  if ← isAt .word then some <$> expectName "a function name" else pure none

/-- A function header behind its keyword. -/
def signatureOf (kind : FunctionKind) (start : Nat) : Parse Signature := do
  let name ← functionName
  let _ ← expect .openParen "`(`"
  let params ← loop parameterRound #[]
  let _ ← expect .closeParen "`)`"
  let _ ← expect .arrow "`->`"
  pure ⟨kind, name, params.toList, start⟩

/-- A function header. Callers have looked before that its keyword is at the cursor. -/
def signature : Parse Signature := do
  let token ← advance
  match token.keyword?.bind Keyword.functionKind? with
  | some kind => signatureOf kind token.index
  | none => raise (.notAFunction token.text)

end FrontEnd.Grammar
