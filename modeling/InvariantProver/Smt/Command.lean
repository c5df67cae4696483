import InvariantProver.Smt.Text

namespace InvariantProver

open Text

inductive Command
  | setOption (name value : String)
  | declare (r : Ref)
  | assert (t : Term)
  | push
  | pop
  | checkSat
  | getValue (refs : List Ref)
  | reasonUnknown
  | exit
  deriving DecidableEq

namespace Command

def text : Command → String
  | setOption name value => parenthesized ["set-option", ":" ++ name, value]
  | declare r => parenthesized ["declare-const", r.smt, r.ty.sortName]
  | assert t => parenthesized ["assert", t.smt]
  | push => "(push 1)"
  | pop => "(pop 1)"
  | checkSat => "(check-sat)"
  | getValue refs => parenthesized ["get-value", parenthesized (refs.map Ref.smt)]
  | reasonUnknown => "(get-info :reason-unknown)"
  | exit => "(exit)"

end Command

end InvariantProver
