import InvariantProver.SExpr.Reader
import InvariantProver.SExpr.Value

namespace InvariantProver

open Text

inductive Misuse
  | closed (session : String)
  | negativeStep (v : Variable) (step : Int)
  | alreadyDeclared (r : Ref)
  | notBool (t : Term)
  | undeclaredAssertion (r : Ref)
  | unmatchedPop
  | noModel
  | undeclaredValue (r : Ref)

def Misuse.message : Misuse → String
  | closed session => session ++ " session is closed"
  | negativeStep v step =>
    "cannot declare '" ++ v.name ++ "' at negative step " ++ intText step
  | alreadyDeclared r => "'" ++ r.text ++ "' is already declared"
  | notBool t => "cannot assert a term of type '" ++ t.ty.text ++ "': " ++ t.text
  | undeclaredAssertion r => "assertion references undeclared '" ++ r.text ++ "'"
  | unmatchedPop => "pop without matching push"
  | noModel => "get_values is only valid right after a SAT check"
  | undeclaredValue r => "cannot get the value of undeclared '" ++ r.text ++ "'"

inductive SolverFault
  | unreadable (e : ReadError)
  | badValue (e : ValueError)
  | reported (solver text : String)
  | stopped (solver reason : String)
  | exited (solver : String) (code : Option Int)
  | unexpectedCheck (solver text : String)
  | unexpectedValues (solver text : String)
  | unexpectedEntry (solver : String) (entry : SExpr)
  | cannotStart (solver reason : String)
  | noneFound
  | noAnswerLeft
  | refused (message : String)

def codeText : Option Int → String
  | some code => intText code
  | none => "None"

def SolverFault.message : SolverFault → String
  | unreadable e => e.message
  | badValue e => e.message
  | reported solver text => solver ++ " reported " ++ text
  | stopped solver reason => solver ++ " stopped accepting commands: " ++ reason
  | exited solver code => solver ++ " exited unexpectedly (code " ++ codeText code ++ ")"
  | unexpectedCheck solver text => "unexpected answer to check-sat from " ++ solver ++ ": " ++ text
  | unexpectedValues solver text => "unexpected get-value answer from " ++ solver ++ ": " ++ text
  | unexpectedEntry solver entry =>
    "unexpected get-value entry from " ++ solver ++ ": " ++ entry.shown
  | cannotStart solver reason => "cannot start solver '" ++ solver ++ "': " ++ reason
  | noneFound => "no SMT-LIBv2 solver found (tried z3, cvc5, yices-smt2)"
  | noAnswerLeft => "no scripted answer left"
  | refused message => message

inductive SessionError
  | misuse (m : Misuse)
  | solver (f : SolverFault)
  | unsupported

end InvariantProver
