/-! Reserved words. They are lexed as plain words; a token that spells one is recognised where the
grammar looks at it. -/
namespace FrontEnd

inductive Keyword where
  | letKey
  | varKey
  | asKey
  | actionKey
  | computeKey
  | returnKey
  | importKey
  | externKey
deriving DecidableEq

/-- The statements that a keyword can open. -/
inductive StatementForm where
  | binding
  | function
  | returning
  | importing
deriving DecidableEq

/-- The two sorts of functions: an action runs a block for its effects, a compute has a value. -/
inductive FunctionKind where
  | action
  | compute
deriving DecidableEq

namespace Keyword

/-- Every keyword, in the order in which they are listed. -/
def all : List Keyword :=
  [.letKey, .varKey, .asKey, .actionKey, .computeKey, .returnKey, .importKey, .externKey]

def text : Keyword → String
  | .letKey => "let"
  | .varKey => "var"
  | .asKey => "as"
  | .actionKey => "action"
  | .computeKey => "compute"
  | .returnKey => "return"
  | .importKey => "import"
  | .externKey => "extern"

def name : Keyword → String
  | .letKey => "Let"
  | .varKey => "Var"
  | .asKey => "As"
  | .actionKey => "Action"
  | .computeKey => "Compute"
  | .returnKey => "Return"
  | .importKey => "Import"
  | .externKey => "Extern"

/-- The keyword with this spelling. -/
def ofText? (text : String) : Option Keyword :=
  all.find? (·.text == text)

/-- The statement that the keyword opens, if it opens one. -/
def statementForm? : Keyword → Option StatementForm
  | .letKey => some .binding
  | .actionKey => some .function
  | .computeKey => some .function
  | .returnKey => some .returning
  | .importKey => some .importing
  | .varKey => none
  | .asKey => none
  | .externKey => none

def opensStatement (keyword : Keyword) : Bool :=
  keyword.statementForm?.isSome

/-- The sort of function that the keyword introduces, if it introduces one. -/
def functionKind? : Keyword → Option FunctionKind
  | .actionKey => some .action
  | .computeKey => some .compute
  | _ => none

@[simp] theorem ofText?_text (keyword : Keyword) : ofText? keyword.text = some keyword := by
  cases keyword <;> rfl

theorem text_of_ofText? {text : String} {keyword : Keyword} (h : ofText? text = some keyword) :
    keyword.text = text := by
  simpa using List.find?_some h

end Keyword

namespace FunctionKind

def name : FunctionKind → String
  | .action => "Action"
  | .compute => "Compute"

def keyword : FunctionKind → Keyword
  | .action => .actionKey
  | .compute => .computeKey

@[simp] theorem functionKind?_keyword (kind : FunctionKind) :
    kind.keyword.functionKind? = some kind := by
  cases kind <;> rfl

end FunctionKind

end FrontEnd
