import InvariantProver.Number.Shortest

namespace InvariantProver

structure Timing where
  checks : Nat := 0
  total : Binary64 := .zero false
  last : Binary64 := .zero false

def Timing.record (t : Timing) (elapsed : Binary64) : Timing :=
  ⟨t.checks + 1, t.total.add elapsed, elapsed⟩

def Timing.text (t : Timing) : String :=
  Text.natText t.checks ++ " check(s), " ++ t.total.fixedText ++ "ms"

end InvariantProver
