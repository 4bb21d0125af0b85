/-! Internal faults. A fault is neither a lexical error nor a diagnostic: it says that a function
was called outside its contract, or that a bound of the machine was passed, and so that the call
has no answer. -/
namespace FrontEnd

/-- Where an operator stands relative to its operands. -/
inductive Fixity where
  | before
  | between
deriving DecidableEq

namespace Fixity

def all : List Fixity := [.before, .between]

def name : Fixity → String
  | .before => "Prefix"
  | .between => "Infix"

end Fixity

inductive Fault where
  /-- A token range was asked for whose end lies before its start. -/
  | invertedRange (start stop : Nat)
  /-- A token was read as an operator that it is not. -/
  | misplacedOperator (text : String) (fixity : Fixity)
  /-- A function header was read at a token that opens none. -/
  | notAFunction (text : String)
  /-- A text was cut inside the bytes of one character. -/
  | splitCharacter
  /-- A position outside its list was read. -/
  | outOfRange
  /-- A number left the range of machine addresses. -/
  | overflow
  /-- A loop used up the rounds that its input allows. -/
  | stuck
deriving DecidableEq

namespace Fault

/-- The text of a fault that describes itself; the others have none. -/
def message : Fault → Option String
  | .invertedRange start stop =>
    some ("token span " ++ toString start ++ ".." ++ toString stop ++ " is inverted")
  | .misplacedOperator text fixity =>
    some ("internal error: entered unreachable code: `" ++ text ++ "` is not a " ++
      fixity.name ++ " operator")
  | .notAFunction text =>
    some ("internal error: entered unreachable code: `" ++ text ++ "` does not start a function")
  | .splitCharacter => none
  | .outOfRange => none
  | .overflow => none
  | .stuck => none

end Fault

/-- Why there is no result: the input was refused for a reason `ε`, or a fault occurred. -/
inductive Failure (ε : Type) where
  | refused (reason : ε)
  | fault (fault : Fault)
deriving DecidableEq

/-- Addresses, and so byte offsets and token indices, are numbers of 64 bits. -/
def addressLimit : Nat := 18446744073709551616

end FrontEnd
