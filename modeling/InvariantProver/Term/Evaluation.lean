import InvariantProver.Term.Basic

/-!
The value of a term under values for its references. Relations and equality hold of a list when they
hold of its neighbours, implication associates to the right, and whole division leaves a remainder
that is not negative. Every operand is evaluated, and the first failure counts.
-/

namespace InvariantProver

inductive EvalError
  | noValue (r : Ref)
  | irrational (r : Ref) (text : String)
  | divisionByZero
  | zeroDivisor (op : Op)
  | missingOperand
  | operandCount (got : Nat)
  | irrationalOperand (op : Op)
  deriving DecidableEq

def EvalError.message : EvalError → String
  | noValue r => "no value for '" ++ r.text ++ "'"
  | irrational r text => "'" ++ r.text ++ "' has the irrational value " ++ text
  | divisionByZero => "division by zero"
  | zeroDivisor op => "'" ++ op.symbol ++ "' by zero"
  | missingOperand => "list index out of range"
  | operandCount got =>
    if got < 2 then "not enough values to unpack (expected 2, got " ++ Text.natText got ++ ")"
    else "too many values to unpack (expected 2)"
  | irrationalOperand op => "'" ++ op.symbol ++ "' needs exact operands"

namespace Scalar

def truth : Scalar → Bool
  | bool b => b
  | int i => i ≠ 0
  | rat q => q ≠ 0

def toRat : Scalar → Rat
  | bool b => b.toInt
  | int i => i
  | rat q => q

def toInt? : Scalar → Option Int
  | bool b => some b.toInt
  | int i => some i
  | rat _ => none

def arith (onInt : Int → Int → Int) (onRat : Rat → Rat → Rat) (a b : Scalar) : Scalar :=
  match a.toInt?, b.toInt? with
  | some i, some j => int (onInt i j)
  | _, _ => rat (onRat a.toRat b.toRat)

def add : Scalar → Scalar → Scalar := arith (· + ·) (· + ·)

def sub : Scalar → Scalar → Scalar := arith (· - ·) (· - ·)

def mul : Scalar → Scalar → Scalar := arith (· * ·) (· * ·)

def neg (a : Scalar) : Scalar :=
  match a.toInt? with
  | some i => int (-i)
  | none => rat (-a.toRat)

def ratMod (a b : Rat) : Rat := if b < 0 then a + b * (a / -b).floor else a - b * (a / b).floor

def mod : Scalar → Scalar → Scalar := arith (· % ·) ratMod

def idiv (a b : Scalar) : Scalar :=
  match a.toInt?, b.toInt? with
  | some i, some j => int (i / j)
  | _, _ => int ((a.toRat - ratMod a.toRat b.toRat) / b.toRat).floor

def same (a b : Scalar) : Bool := a.toRat = b.toRat

def compare (op : Op) (a b : Scalar) : Bool :=
  match op with
  | .ge => b.toRat ≤ a.toRat
  | .le => a.toRat ≤ b.toRat
  | .gt => b.toRat < a.toRat
  | _ => a.toRat < b.toRat

end Scalar

namespace Op

def chain (rel : Scalar → Scalar → Bool) : List Scalar → Bool
  | a :: b :: rest => rel a b && chain rel (b :: rest)
  | _ => true

def implication : List Scalar → Except EvalError Bool
  | [] => .error .missingOperand
  | [conclusion] => .ok conclusion.truth
  | hypothesis :: rest => do return !hypothesis.truth || (← implication rest)

def choose {α : Type} (truth : α → Bool) : List α → Except EvalError α
  | condition :: onTrue :: rest =>
    if truth condition then .ok onTrue
    else match rest with
      | onFalse :: _ => .ok onFalse
      | [] => .error .missingOperand
  | _ => .error .missingOperand

def accumulate (step : Scalar → Scalar → Scalar) : List Scalar → Except EvalError Scalar
  | [] => .error .missingOperand
  | first :: rest => .ok (rest.foldl step first)

def divide (failure : EvalError) (quotient : Scalar → Scalar → Scalar) :
    List Scalar → Except EvalError Scalar
  | [a, b] => if b.toRat = 0 then .error failure else .ok (quotient a b)
  | args => .error (.operandCount args.length)

def apply (op : Op) (args : List Scalar) : Except EvalError Scalar :=
  match op with
  | ite => choose Scalar.truth args
  | not =>
    match args with
    | [] => .error .missingOperand
    | a :: _ => .ok (.bool !a.truth)
  | and => .ok (.bool (args.all Scalar.truth))
  | or => .ok (.bool (args.any Scalar.truth))
  | implies => (implication args).map .bool
  | eq => .ok (.bool (args.tail.all (args.headD (.bool false)).same))
  | ge | le | gt | lt => .ok (.bool (chain (Scalar.compare op) args))
  | add => accumulate .add args
  | sub =>
    match args with
    | [a] => .ok a.neg
    | _ => accumulate .sub args
  | mul => accumulate .mul args
  | div => divide .divisionByZero (fun a b => .rat (a.toRat / b.toRat)) args
  | idiv => divide (.zeroDivisor op) .idiv args
  | mod => divide (.zeroDivisor op) .mod args

end Op

abbrev Valuation := Ref → Option Value

namespace Valuation

def ofList (entries : List (Ref × Value)) : Valuation := fun r => entries.reverse.lookup r

def exact (env : Valuation) (r : Ref) : Except EvalError Scalar :=
  match env r with
  | none => .error (.noValue r)
  | some (.algebraic text _) => .error (.irrational r text)
  | some (.exact s) => .ok s

end Valuation

def collect {ε α : Type} : List (Except ε α) → Except ε (List α)
  | [] => .ok []
  | x :: xs => do return (← x) :: (← collect xs)

def Term.evaluate (env : Valuation) : Term → Except EvalError Scalar :=
  Term.fold .ok env.exact fun op _ results => do op.apply (← collect results)

end InvariantProver
