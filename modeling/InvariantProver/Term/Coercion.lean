import InvariantProver.Term.Irrational

namespace InvariantProver

def Scalar.truncate : Scalar → Int
  | .bool b => b.toInt
  | .int i => i
  | .rat q => Int.tdiv q.num q.den

def Scalar.coerce (ty : Ty) (s : Scalar) : Scalar :=
  match ty with
  | .bool => .bool s.truth
  | .int => .int s.truncate
  | .rat => .rat s.toRat

def Value.coerce? (ty : Ty) : Value → Option Scalar
  | .exact s => some (s.coerce ty)
  | v => if ty = .bool then some (.bool v.truth) else none

theorem Scalar.coerce_ty (s : Scalar) : s.coerce s.ty = s := by
  cases s <;> rfl

end InvariantProver
