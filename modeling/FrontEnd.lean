import FrontEnd.Program
import FrontEnd.Tree.Outline
import FrontEnd.Proofs.Precedence
import FrontEnd.Proofs.Conservation
import FrontEnd.Proofs.RoundTrip
import FrontEnd.Proofs.Lawful
import FrontEnd.Proofs.Concatenation
import FrontEnd.Proofs.Isolation
import FrontEnd.Proofs.Recovery
import FrontEnd.Proofs.Diagnosis.Program
import FrontEnd.Proofs.Mirror.Program
import FrontEnd.Proofs.Depth.Program
import FrontEnd.Proofs.Lexing.Tokenize
import FrontEnd.Proofs.Progress
import FrontEnd.Proofs.Imports.Words
import FrontEnd.Proofs.Imports.Exact
import FrontEnd.Proofs.Lexing.Lookahead
import FrontEnd.Proofs.Lexing.Refusal
import FrontEnd.Proofs.Lexing.Numerals
import FrontEnd.Proofs.Lexing.Quotes
import FrontEnd.Proofs.Lexing.Newlines
import FrontEnd.Proofs.Lexing.Extracts
import FrontEnd.Proofs.Lexing.Moves
import FrontEnd.Proofs.Redeclaration
import FrontEnd.Proofs.Parentheses
import FrontEnd.Proofs.FunctionForms
import FrontEnd.Proofs.Outlining.Program
