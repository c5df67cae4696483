import InvariantProver.Number.Shortest
import InvariantProver.Term.Construction

namespace InvariantProver

open Text

inductive Literal
  | bool (b : Bool)
  | int (i : Int)
  | rat (q : Rat)
  | text (s : String)
  | float (x : Binary64)
  | none
  deriving DecidableEq

inductive LiteralError
  | notInteger (got : Literal)
  | unsupported (got : Literal)
  | invalid (got : Literal)
  deriving DecidableEq

namespace Literal

def shown : Literal → String
  | bool true => "True"
  | bool false => "False"
  | int i => intText i
  | rat q => "Fraction(" ++ intText q.num ++ ", " ++ natText q.den ++ ")"
  | text s => quoted s
  | float x => x.text
  | none => "None"

def integer : Literal → Except LiteralError Term
  | int i => .ok (.const (.int i))
  | l => .error (.notInteger l)

def constant : Literal → Except LiteralError Term
  | bool b => .ok (Term.ofBool b)
  | int i => .ok (.const (.int i))
  | rat q => .ok (.const (.rat q))
  | l => .error (.unsupported l)

def fraction (l : Literal) (written : String) : Except LiteralError Term :=
  match Fraction.read written with
  | .ok q => .ok (.const (.rat q))
  | .error _ => .error (.invalid l)

def term : Literal → Except LiteralError Term
  | bool b => .ok (Term.ofBool b)
  | int i => .ok (.const (.int i))
  | rat q => .ok (.const (.rat q))
  | text s => fraction (text s) s
  | float x => fraction (float x) x.text
  | none => .error (.invalid none)

end Literal

def LiteralError.message : LiteralError → String
  | notInteger got => "expected an integer constant, got " ++ got.shown
  | unsupported got => "unsupported constant " ++ got.shown
  | invalid got => "invalid literal " ++ got.shown

end InvariantProver
