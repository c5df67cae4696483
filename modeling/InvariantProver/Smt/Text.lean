import InvariantProver.Term.Coercion
import InvariantProver.Term.Text

namespace InvariantProver

open Text

def Text.signedText (negative : Bool) (body : String) : String :=
  if negative then parenthesized ["-", body] else body

def Scalar.smt : Scalar → String
  | .bool true => "true"
  | .bool false => "false"
  | .int i => signedText (i < 0) (natText i.natAbs)
  | .rat q =>
    let decimal (n : Nat) := natText n ++ ".0"
    let n := decimal q.num.natAbs
    signedText (q.num < 0) (if q.den = 1 then n else parenthesized ["/", n, decimal q.den])

/-- The text of a value where one of a type is expected. A value that is no whole number stands as it is
where a whole number is expected. -/
def Scalar.smtAs (ty : Ty) (s : Scalar) : String :=
  match ty, s with
  | .int, .bool b => if b then "True" else "False"
  | .int, .rat q =>
    let n := natText q.num.natAbs
    signedText (q.num < 0) (if q.den = 1 then n else n ++ "/" ++ natText q.den)
  | _, _ => (s.coerce ty).smt

def Value.smtAs? (ty : Ty) : Value → Option String
  | .exact s => some (s.smtAs ty)
  | v => (v.coerce? ty).map Scalar.smt

theorem Scalar.smtAs_ty (s : Scalar) : s.smtAs s.ty = s.smt := by
  cases s <;> rfl

def Ref.smt (r : Ref) : String := "|" ++ r.text ++ "|"

namespace Term

def converts (op : Op) (args : List Term) : Bool :=
  op = .div && (args.head?.map ty) = some .int

def smt : Term → String :=
  fold Scalar.smt Ref.smt fun op args texts =>
    let texts := if converts op args then texts.map fun t => parenthesized ["to_real", t] else texts
    parenthesized (op.symbol :: texts)

end Term

end InvariantProver
