import InvariantProver.Proofs.Term.Typing
import InvariantProver.SExpr.Basic
import Mathlib.Algebra.Group.Nat.Defs

/-!
The language of solvers as far as terms use it: truth values, whole numbers and real numbers with
their functions and the rules that extend functions of two arguments to more. Expressions are read
in the domain of sorts and in that of values.
-/

namespace InvariantProver.Smt

inductive Extension
  | left
  | right
  | chain
  deriving DecidableEq

def extension? (f : String) : Option Extension :=
  if f ∈ ["+", "-", "*", "/", "div", "and", "or"] then some .left
  else if f = "=>" then some .right
  else if f ∈ ["=", "<=", "<", ">=", ">"] then some .chain
  else none

structure Theory (α : Type) where
  constant : Scalar → α
  unary : String → α → Option α
  binary : String → α → α → Option α
  choice : α → α → α → Option α

namespace Theory

variable {α : Type} (T : Theory α)

def right (f : String) : List α → Option α
  | [] => none
  | [a] => some a
  | a :: b :: rest => do T.binary f a (← right f (b :: rest))

def chain (f : String) : List α → Option α
  | a :: b :: c :: rest => do T.binary "and" (← T.binary f a b) (← chain f (b :: c :: rest))
  | [a, b] => T.binary f a b
  | _ => none

def apply (f : String) (args : List α) : Option α :=
  match args with
  | [] => none
  | [a] => T.unary f a
  | [a, b] => T.binary f a b
  | a :: b :: c :: rest =>
    if f = "ite" then if rest.isEmpty then T.choice a b c else none
    else match extension? f with
      | some .left => (b :: c :: rest).foldlM (T.binary f) a
      | some .right => T.right f args
      | some .chain => T.chain f args
      | none => none

end Theory

def arithSorts (f : String) (sort : Ty) : Option Ty :=
  if f ∈ ["+", "-", "*"] then some sort
  else if f ∈ ["<=", "<", ">=", ">"] then some .bool
  else none

def sorts : Theory Ty where
  constant := Scalar.ty
  unary f sort :=
    match f, sort with
    | "not", .bool => some .bool
    | "-", .int => some .int
    | "-", .rat => some .rat
    | "to_real", .int => some .rat
    | _, _ => none
  binary f first second :=
    if first ≠ second then none
    else if f = "=" then some .bool
    else match first with
      | .bool => if f ∈ ["=>", "and", "or"] then some .bool else none
      | .int => if f ∈ ["div", "mod"] then some .int else arithSorts f .int
      | .rat => if f = "/" then some .rat else arithSorts f .rat
  choice condition onTrue onFalse :=
    if condition = .bool ∧ onTrue = onFalse then some onTrue else none

def bools : String → Bool → Bool → Option Bool
  | "=>", a, b => some (!a || b)
  | "and", a, b => some (a && b)
  | "or", a, b => some (a || b)
  | "=", a, b => some (a = b)
  | _, _, _ => none

def ints (z : ZeroReading) : String → Int → Int → Option Scalar
  | "+", i, j => some (.int (i + j))
  | "-", i, j => some (.int (i - j))
  | "*", i, j => some (.int (i * j))
  | "div", i, j => some (.int (if j = 0 then z.idiv i else i / j))
  | "mod", i, j => some (.int (if j = 0 then z.mod i else i % j))
  | "=", i, j => some (.bool (i = j))
  | "<=", i, j => some (.bool (i ≤ j))
  | "<", i, j => some (.bool (i < j))
  | ">=", i, j => some (.bool (i ≥ j))
  | ">", i, j => some (.bool (i > j))
  | _, _, _ => none

def reals (z : ZeroReading) : String → Rat → Rat → Option Scalar
  | "+", p, q => some (.rat (p + q))
  | "-", p, q => some (.rat (p - q))
  | "*", p, q => some (.rat (p * q))
  | "/", p, q => some (.rat (if q = 0 then z.div p else p / q))
  | "=", p, q => some (.bool (p = q))
  | "<=", p, q => some (.bool (p ≤ q))
  | "<", p, q => some (.bool (p < q))
  | ">=", p, q => some (.bool (p ≥ q))
  | ">", p, q => some (.bool (p > q))
  | _, _, _ => none

/-- The values of results. The theories do not say what a division by zero gives. -/
def values (z : ZeroReading) : Theory Scalar where
  constant := id
  unary f value :=
    match f, value with
    | "not", .bool b => some (.bool !b)
    | "-", .int i => some (.int (-i))
    | "-", .rat q => some (.rat (-q))
    | "to_real", .int i => some (.rat i)
    | _, _ => none
  binary f first second :=
    match first, second with
    | .bool a, .bool b => (bools f a b).map .bool
    | .int i, .int j => ints z f i j
    | .rat p, .rat q => reals z f p q
    | _, _ => none
  choice condition onTrue onFalse :=
    match condition with
    | .bool b => if onTrue.ty = onFalse.ty then some (if b then onTrue else onFalse) else none
    | _ => none

/-! ### Expressions -/

def natural? (cs : List Char) : Option Nat :=
  if cs ≠ [] ∧ cs.all Char.isDigit then some (Nat.ofDigitChars 10 cs 0) else none

def numeral? (cs : List Char) : Option Nat :=
  if cs.head? = some '0' ∧ cs ≠ ['0'] then none else natural? cs

def decimal? (cs : List Char) : Option Rat :=
  match cs.span (· ≠ '.') with
  | (whole, _ :: places) => do
    return (← numeral? whole) + (← natural? places) / (10 ^ places.length : Nat)
  | _ => none

def literal? (text : String) : Option Scalar :=
  if text = "true" then some (.bool true)
  else if text = "false" then some (.bool false)
  else ((numeral? text.toList).map fun n => .int n).or ((decimal? text.toList).map .rat)

namespace Theory

variable {α : Type} (T : Theory α) (symbols : String → Option α)

def leaf (text : String) : Option α := ((literal? text).map T.constant).or (symbols text)

mutual

def read : SExpr → Option α
  | .atom text => T.leaf symbols text
  | .list (.atom f :: args) => do T.apply f (← readAll args)
  | .list _ => none

def readAll : List SExpr → Option (List α)
  | [] => some []
  | e :: es => do return (← read e) :: (← readAll es)

end

end Theory

end InvariantProver.Smt
