import InvariantProver.Term.Basic

namespace InvariantProver

def Scalar.text : Scalar → String
  | .bool true => "true"
  | .bool false => "false"
  | .int (.ofNat n) => Text.natText n
  | .int (.negSucc n) => "(- " ++ Text.natText (n + 1) ++ ")"
  | .rat q =>
    let quotient := "(/ " ++ Text.natText q.num.natAbs ++ " " ++ Text.natText q.den ++ ")"
    if q.num < 0 then "(- " ++ quotient ++ ")" else quotient

def Value.text : Value → String
  | .exact s => s.text
  | .algebraic text _ => text

def Text.parenthesized (parts : List String) : String := "(" ++ " ".intercalate parts ++ ")"

def Term.text : Term → String :=
  Term.fold Scalar.text Ref.text fun op _ args => Text.parenthesized (op.symbol :: args)

end InvariantProver
