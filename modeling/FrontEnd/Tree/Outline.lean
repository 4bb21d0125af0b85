import FrontEnd.Text.Quoted
import FrontEnd.Tree.Basic

/-! Outlines: trees as nested lists in parentheses, without any place. Two source texts have the
same outline when they say the same. -/
namespace FrontEnd

namespace Outline

/-- A list in parentheses. -/
def node (parts : List String) : String :=
  "(" ++ " ".intercalate parts ++ ")"

def spaced (parts : List String) : String :=
  " ".intercalate parts

def flag (b : Bool) : String :=
  if b then "true" else "false"

/-- A name that may be left out. -/
def optional : Option Ident → String
  | some ident => ident.name
  | none => "_"

/-- The names of parameters, in parentheses. -/
def names (idents : List Ident) : String :=
  "(" ++ ", ".intercalate (idents.map (·.name)) ++ ")"

def literal (l : Literal) : String :=
  node [l.kind.name, Text.quote l.value]

mutual

def path : Path → String
  | ⟨segment, target, localName, _⟩ =>
    node ["path", segment.name, pathTarget target, "as=" ++ optional localName]

def pathTarget : PathTarget → String
  | .leaf => "leaf"
  | .item item => node ["item", item.name]
  | .nested next => path next
  | .wildcard _ => "*"
  | .group entries => node ["group", spaced (paths entries)]

def paths : List Path → List String
  | [] => []
  | entry :: entries => path entry :: paths entries

end

mutual

def expr : Expr → String
  | .literal l => literal l
  | .ident i => i.name
  | .binary left op right _ => node [op.operation.name, expr left, expr right]
  | .unary op e _ => node [op.operation.name, expr e]
  | .block b => block b
  | .function kind name params body _ =>
    node ["fn", kind.name, optional name, names params, expr body]
  | .call callee args _ => node ["call", callee.name, spaced (exprs args)]
  | .callValue callee args _ => node ["call-value", expr callee, spaced (exprs args)]
  | .tuple elements _ => node ["tuple", spaced (exprs elements)]
  | .path p => path p

def exprs : List Expr → List String
  | [] => []
  | e :: es => expr e :: exprs es

def block : Block → String
  | ⟨body, value, _⟩ =>
    node ["block", "tail=" ++ flag value.isSome, spaced (stmts body ++ tail value)]

def tail : Option Expr → List String
  | none => []
  | some value => [expr value]

def stmts : List Stmt → List String
  | [] => []
  | s :: ss => stmt s :: stmts ss

def stmt : Stmt → String
  | .expr e _ => node ["stmt", expr e]
  | .binding mutable name value _ =>
    node ["let", "mutable=" ++ flag mutable, name.name, expr value]
  | .function kind name params body _ =>
    node ["fn-decl", kind.name, name.name, names params, block body]
  | .returning value _ => node ["return", expr value]
  | .importResource resource localName _ => node ["extern", literal resource, localName.name]
  | .importPath p _ => node ["import", path p]

end

end Outline

namespace Program

/-- The outline of a program. -/
def outline (program : Program) : String :=
  Outline.node ["program", Outline.spaced (Outline.stmts program.body)]

end Program

end FrontEnd
