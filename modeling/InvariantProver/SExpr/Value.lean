import InvariantProver.SExpr.Basic
import InvariantProver.Number.Fraction

namespace InvariantProver

inductive ValueError
  | notBool (got : SExpr)
  | notInt (got : SExpr)
  | notNumber (got : SExpr)
  | fraction (e : FractionError)

def ValueError.message : ValueError → String
  | notBool got => "expected a bool value, got " ++ got.shown
  | notInt got => "expected an int value, got " ++ got.shown
  | notNumber got => "expected a numeric value, got " ++ got.shown
  | fraction e => e.message

namespace SExpr

def numeral (text : String) : Except ValueError Rat :=
  match Fraction.read text with
  | .ok q => .ok q
  | .error (.malformed _) => .error (.notNumber (atom text))
  | .error e => .error (.fraction e)

def quotient (a b : Rat) : Except ValueError Rat := (Fraction.divide a b).mapError .fraction

def number : SExpr → Except ValueError Rat
  | atom text => numeral text
  | list [atom head, e] =>
    if head = "-" then return -(← number e)
    else if head = "to_real" then number e
    else .error (.notNumber (list [atom head, e]))
  | list [atom head, a, b] =>
    if head = "/" then do quotient (← number a) (← number b)
    else .error (.notNumber (list [atom head, a, b]))
  | e => .error (.notNumber e)

def rootObject? : SExpr → Option String
  | list (atom "root-obj" :: items) => some (render (list (atom "root-obj" :: items)))
  | _ => none

def boolValue (e : SExpr) : Except ValueError Bool :=
  match e with
  | atom "true" => .ok true
  | atom "false" => .ok false
  | _ => .error (.notBool e)

def value (ty : Ty) (e : SExpr) : Except ValueError Value :=
  match ty with
  | .bool => do return .exact (.bool (← boolValue e))
  | .int => do
    let q ← number e
    if q.den = 1 then return .exact (.int q.num) else throw (.notInt e)
  | .rat =>
    match rootObject? e with
    | some text => .ok (.algebraic text none)
    | none => do return .exact (.rat (← number e))

end SExpr

end InvariantProver
