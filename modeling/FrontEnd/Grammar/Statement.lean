import FrontEnd.Grammar.Expression
import FrontEnd.Grammar.Path

/-! Statements. A keyword decides which statement follows; without one it is an expression. -/
namespace FrontEnd.Grammar

open Parse

/-- The rest of an expression statement behind its expression. -/
def expressionStatement (e : Expr) (start : Nat) : Parse Stmt := do
  let token ← current
  if token.kind ≠ .semicolon then failHere (.missingSemicolon token.text)
  else if e.canStandAlone = false then fail ⟨.cannotStandAlone e.kind, e.span⟩
  else
    let _ ← expectSemicolon
    let span ← rangeFrom start
    pure (.expr e span)

/-- The header of a function declaration, which has a name and is followed by a block. -/
def declarationHeader : Parse (Signature × Ident) := do
  let header ← signature
  match header.name with
  | none => fail ⟨.missingFunctionName, .single (header.start + 1)⟩
  | some name =>
    let token ← current
    if token.kind = .openCurly then pure (header, name)
    else
      match header.kind with
      | .action => failHere .actionBodyNotBlock
      | .compute => failHere (.unexpectedToken "a block as function body" token.text)

/-- An import of an outside resource, behind its two keywords. -/
def resourceImport (start : Nat) : Parse Stmt := do
  let resource ← expect .string "a string literal for extern resource"
  let token ← current
  if token.isKeyword .asKey = false then failHere (.expectedAs token.text)
  else
    let _ ← advance
    let localName ← expectName "an extern resource alias"
    let _ ← expectSemicolon
    let span ← rangeFrom start
    pure (.importResource ⟨.string, resource.value, .single resource.index⟩ localName span)

namespace Level

variable (g : Level)

/-- A variable declaration from its name on. -/
def bindingFrom (start : Nat) (mutable : Bool) : Parse Stmt := do
  let name ← expectName "a variable name"
  let _ ← expect .assign "`=`"
  let value ← g.requiredExpression "for variable declaration"
  let _ ← expectSemicolon
  let span ← rangeFrom start
  pure (.binding mutable name value span)

/-- A variable declaration; the variable can be assigned to if a second keyword says so. -/
def bindingStatement : Parse Stmt := do
  let opening ← advance
  if ← isAtKeyword .varKey then
    let _ ← advance
    g.bindingFrom opening.index true
  else g.bindingFrom opening.index false

/-- A function declaration. In a block a header that does not fit may still be that of a function
expression at the end of the block: the attempt is undone and there is no statement. -/
def functionStatement (inBlock : Bool) : Parse (Option Stmt) := do
  let before ← mark
  match ← attempt declarationHeader with
  | .error d =>
    if inBlock then
      rewind before
      pure none
    else fail d
  | .ok (header, name) =>
    let body ← g.block
    if header.kind = .action ∧ body.hasTail = true then fail ⟨.actionTail, body.span⟩
    else
      let span ← rangeBetween header.start body.span.stop
      pure (some (.function header.kind name header.params body span))

def returnStatement : Parse Stmt := do
  let opening ← advance
  let value ← g.requiredExpression "for return statement"
  let _ ← expectSemicolon
  let span ← rangeFrom opening.index
  pure (.returning value span)

/-- An import of a path, behind its keyword. -/
def pathImport (start : Nat) : Parse Stmt := do
  let segment ← expectName "an identifier after `import`"
  let _ ← expect .doubleColon "`::`"
  let path ← g.path segment .importing
  let _ ← expectSemicolon
  let span ← rangeFrom start
  pure (.importPath path span)

def importStatement : Parse Stmt := do
  let opening ← advance
  let token ← current
  match token.keyword? with
  | some .externKey =>
    let _ ← advance
    resourceImport opening.index
  | some keyword => failHere (.unexpectedKeyword keyword "import statement")
  | none => g.pathImport opening.index

/-- A statement of the given form, whose keyword is passed whatever it is. -/
def statementOf (form : StatementForm) (inBlock : Bool) : Parse (Option Stmt) :=
  match form with
  | .binding => some <$> g.bindingStatement
  | .function => g.functionStatement inBlock
  | .returning => some <$> g.returnStatement
  | .importing => some <$> g.importStatement

/-- A statement, if one starts here. -/
def statement (inBlock : Bool) : Parse (Option Stmt) := do
  let token ← current
  match token.keyword? with
  | some keyword =>
    match keyword.statementForm? with
    | some form => g.statementOf form inBlock
    | none => failHere (.unexpectedKeyword keyword "statement")
  | none =>
    let start ← position
    match ← g.expression with
    | none => pure none
    | some e => some <$> expressionStatement e start

end Level

end FrontEnd.Grammar
