import InvariantProver.Term.Ty
import InvariantProver.Text.Numeral

namespace InvariantProver

inductive Op
  | ite
  | implies
  | add
  | sub
  | mul
  | div
  | idiv
  | mod
  | ge
  | le
  | gt
  | lt
  | eq
  | not
  | and
  | or
  deriving DecidableEq

inductive TypeError
  | tooFew (op : Op) (count : Nat)
  | tooMany (op : Op) (count : Nat)
  | condition (got : Ty)
  | branches (onTrue onFalse : Ty)
  | notBool (op : Op) (got : Ty)
  | mixed (op : Op) (first other : Ty)
  | notArith (op : Op) (got : Ty)
  | notInt (op : Op) (got : Ty)
  deriving DecidableEq

namespace Op

def all : List Op :=
  [ite, implies, add, sub, mul, div, idiv, mod, ge, le, gt, lt, eq, not, and, or]

def symbol : Op → String
  | ite => "ite"
  | implies => "=>"
  | add => "+"
  | sub => "-"
  | mul => "*"
  | div => "/"
  | idiv => "div"
  | mod => "mod"
  | ge => ">="
  | le => "<="
  | gt => ">"
  | lt => "<"
  | eq => "="
  | not => "not"
  | and => "and"
  | or => "or"

def aliases : List (String × Op) :=
  [("implies", implies), ("⇒", implies), ("≥", ge), ("≤", le), ("!", not), ("¬", not), ("&&", and),
    ("⋀", and), ("||", or), ("⋁", or), ("%", mod)]

def ofName? (name : String) : Option Op :=
  (all.find? (·.symbol = name)).or (aliases.lookup name)

theorem mem_all (op : Op) : op ∈ all := by cases op <;> decide

theorem ofName?_symbol (op : Op) : ofName? op.symbol = some op := by cases op <;> decide

def minArity : Op → Nat
  | not | add | sub | and | or => 1
  | ite => 3
  | _ => 2

def maxArity? : Op → Option Nat
  | not => some 1
  | mod | div | idiv => some 2
  | ite => some 3
  | _ => none

def isRelation : Op → Bool
  | ge | le | gt | lt => true
  | _ => false

def isConnective : Op → Bool
  | implies | and | or | not => true
  | _ => false

def checkArity (op : Op) (count : Nat) : Except TypeError Unit :=
  if count < op.minArity then .error (.tooFew op count)
  else if op.maxArity?.any (· < count) then .error (.tooMany op count)
  else .ok ()

def checkUniform (op : Op) : List Ty → Except TypeError Ty
  | [] => .error (.tooFew op 0)
  | first :: rest =>
    match rest.find? (· ≠ first) with
    | some other => .error (.mixed op first other)
    | none => .ok first

def checkArith (op : Op) (operand : Ty) : Except TypeError Unit :=
  if operand = .bool then .error (.notArith op operand)
  else if (op = idiv ∨ op = mod) ∧ operand ≠ .int then .error (.notInt op operand)
  else .ok ()

def checkChoice : List Ty → Except TypeError Ty
  | [condition, onTrue, onFalse] =>
    if condition ≠ .bool then .error (.condition condition)
    else if onTrue ≠ onFalse then .error (.branches onTrue onFalse)
    else .ok onTrue
  | operands => .error (.tooFew ite operands.length)

def checkConnective (op : Op) (operands : List Ty) : Except TypeError Ty :=
  match operands.find? (· ≠ .bool) with
  | some other => .error (.notBool op other)
  | none => .ok .bool

def arithResult (op : Op) (operand : Ty) : Ty :=
  if op = div then .rat else if op.isRelation then .bool else operand

def typeCheck (op : Op) (operands : List Ty) : Except TypeError Ty := do
  op.checkArity operands.length
  if op = ite then checkChoice operands
  else if op.isConnective then op.checkConnective operands
  else
    let operand ← op.checkUniform operands
    if op = eq then return .bool
    op.checkArith operand
    return op.arithResult operand

def resultTy (op : Op) (operands : List Ty) : Ty :=
  if op = ite then operands.getD 1 .bool
  else if op.isConnective ∨ op = eq then .bool
  else op.arithResult (operands.headD .bool)

end Op

def TypeError.message : TypeError → String
  | tooFew op count =>
    "'" ++ op.symbol ++ "' expects at least " ++ Text.natText op.minArity ++ " argument(s), got " ++
      Text.natText count
  | tooMany op count =>
    "'" ++ op.symbol ++ "' expects at most " ++ Text.natText (op.maxArity?.getD count) ++
      " argument(s), got " ++ Text.natText count
  | condition got => "'ite' expects a bool condition, got '" ++ got.text ++ "'"
  | branches onTrue onFalse =>
    "'ite' branches must have the same type, got '" ++ onTrue.text ++ "' and '" ++ onFalse.text ++ "'"
  | notBool op got => "'" ++ op.symbol ++ "' arguments must all be bool, got '" ++ got.text ++ "'"
  | mixed op first other =>
    "'" ++ op.symbol ++ "' arguments must all have the same type, got '" ++ first.text ++ "' and '" ++
      other.text ++ "'"
  | notArith op got => "'" ++ op.symbol ++ "' arguments must be arithmetic, got '" ++ got.text ++ "'"
  | notInt op got =>
    "'" ++ op.symbol ++ "' only applies to int arguments, got '" ++ got.text ++ "'"

end InvariantProver
