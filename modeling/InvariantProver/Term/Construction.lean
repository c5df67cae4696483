import InvariantProver.Number.Fraction
import InvariantProver.Term.Basic

/-!
Building terms. `Term.node` checks the operands of an application and keeps it as it is; `Term.apply`
also simplifies a few applications of one operand, and the connectives drop their neutral elements.
-/

namespace InvariantProver

def Scalar.opposite : Scalar → Scalar
  | .bool b => .int (-b.toInt)
  | .int i => .int (-i)
  | .rat q => .rat (-q)

namespace Term

def node (op : Op) (args : List Term) : Except TypeError Term := do
  let _ ← op.typeCheck (args.map ty)
  return app op args

def simplified (op : Op) (args : List Term) : Term :=
  match op, args with
  | .sub, [const value] => const value.opposite
  | .add, [t] => t
  | .and, [t] => t
  | .or, [t] => t
  | _, _ => app op args

def apply (op : Op) (args : List Term) : Except TypeError Term := do
  let _ ← op.typeCheck (args.map ty)
  return simplified op args

def negate : Term → Except TypeError Term
  | const (.bool b) => .ok (ofBool !b)
  | t => apply .not [t]

def joined (op : Op) (neutral : Bool) (terms : List Term) : Term :=
  match terms.filter (· ≠ ofBool neutral) with
  | [] => ofBool neutral
  | args => simplified op args

def allOf : List Term → Term := joined .and true

def junction (op : Op) (neutral : Bool) (terms : List Term) : Except TypeError Term :=
  match terms.filter (· ≠ ofBool neutral) with
  | [] => .ok (ofBool neutral)
  | args => apply op args

def conj : List Term → Except TypeError Term := junction .and true

def disj : List Term → Except TypeError Term := junction .or false

def implies (hypothesis conclusion : Term) : Except TypeError Term :=
  apply .implies [hypothesis, conclusion]

def equal (left right : Term) : Except TypeError Term := apply .eq [left, right]

def ofFraction (text : String) (divisor : Int) : Except FractionError Term := do
  return const (.rat (← Fraction.divide (← Fraction.read text) divisor))

end Term

end InvariantProver
