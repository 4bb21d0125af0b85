import FrontEnd.Tree.Kind

/-! Diagnostics: what is wrong with a list of tokens, and which tokens show it. -/
namespace FrontEnd

/-- What is wrong. A field `found` is the text of the token that stands in the way. -/
inductive DiagnosticCause where
  | unexpectedToken (expected found : String)
  | expectedExpression (context found : String)
  | unexpectedKeyword (keyword : Keyword) (context : String)
  | keywordAsName (keyword : Keyword) (context : String)
  | missingSemicolon (found : String)
  | notAllowedInBlock (stmt : StmtKind)
  | cannotStandAlone (expr : ExprKind)
  | missingFunctionName
  | actionTail
  | actionBodyNotBlock
  | wildcardOutsideImport
  | groupOutsideImport
  | trailingComma
  | emptyGroup
  | aliasNotAllowed
  | expectedAs (found : String)
  | expectedEnd (found : String)
  | nestingTooDeep (limit : Nat)
deriving DecidableEq

namespace DiagnosticCause

def name : DiagnosticCause → String
  | .unexpectedToken .. => "UnexpectedToken"
  | .expectedExpression .. => "ExpectedExpression"
  | .unexpectedKeyword .. => "UnexpectedKeyword"
  | .keywordAsName .. => "KeywordAsIdentifier"
  | .missingSemicolon _ => "MissingSemicolon"
  | .notAllowedInBlock _ => "NotAllowedInBlock"
  | .cannotStandAlone _ => "CannotStandAlone"
  | .missingFunctionName => "MissingFnName"
  | .actionTail => "ActionTailExpression"
  | .actionBodyNotBlock => "ActionBodyNotBlock"
  | .wildcardOutsideImport => "WildcardOutsideImport"
  | .groupOutsideImport => "GroupOutsideImport"
  | .trailingComma => "TrailingComma"
  | .emptyGroup => "EmptyGroup"
  | .aliasNotAllowed => "AliasNotAllowed"
  | .expectedAs _ => "ExpectedAs"
  | .expectedEnd _ => "ExpectedEof"
  | .nestingTooDeep _ => "NestingTooDeep"

def message : DiagnosticCause → String
  | .unexpectedToken expected found => "Expected " ++ expected ++ " but got `" ++ found ++ "`"
  | .expectedExpression context found =>
    "Expected an expression " ++ context ++ ", got `" ++ found ++ "`"
  | .unexpectedKeyword keyword context =>
    "Unexpected keyword `" ++ keyword.text ++ "` in " ++ context
  | .keywordAsName keyword context =>
    "Keyword `" ++ keyword.text ++ "` cannot be used as " ++ context
  | .missingSemicolon found =>
    "Expected a semi-colon at the end of statement, got `" ++ found ++ "`"
  | .notAllowedInBlock stmt => stmt.text ++ " is not allowed in a block"
  | .cannotStandAlone expr => expr.text ++ " cannot be used as a statement"
  | .missingFunctionName => "Expected an identifier for function declaration"
  | .actionTail => "Actions cannot have a tailing expression"
  | .actionBodyNotBlock => "Action body must be a block"
  | .wildcardOutsideImport => "Unexpected wildcard qualifier in this context"
  | .groupOutsideImport => "Unexpected multiple import qualifier in this context"
  | .trailingComma => "Trailing comma inside path qualifier"
  | .emptyGroup => "Unexpected empty subpath qualifier"
  | .aliasNotAllowed => "`as` clause cannot be used in this context"
  | .expectedAs found => "Expected `as` keyword, got `" ++ found ++ "`"
  | .expectedEnd found => "Expected end of file, got `" ++ found ++ "`"
  | .nestingTooDeep limit => "Nesting exceeds the maximum depth of " ++ toString limit

end DiagnosticCause

structure Diagnostic where
  cause : DiagnosticCause
  span : TokenRange
deriving DecidableEq

namespace Diagnostic

def message (d : Diagnostic) : String :=
  d.cause.message

/-- The message with the tokens it is about. -/
def text (d : Diagnostic) : String :=
  d.message ++ " at tokens " ++ d.span.text

/-- A report of several diagnostics, one line each below a heading. -/
def report (ds : List Diagnostic) : String :=
  "Parser errors encountered during parsing (" ++ toString ds.length ++ "):\n" ++
    String.join (ds.map fun d => "  " ++ d.text ++ "\n")

end Diagnostic

end FrontEnd
