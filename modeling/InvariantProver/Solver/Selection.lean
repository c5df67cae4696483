import InvariantProver.Data.Entries
import InvariantProver.Solver.Basic

namespace InvariantProver

abbrev Environment := Entries String String

structure Machine where
  executables : List String := []
  environment : Environment := []

def Environment.solverKey : String := "TSPROOF_SMT_SOLVER"

namespace Solver

def auto : String := "auto"

def preferred : List String := ["z3", "cvc5", "yices-smt2"]

def isAvailable (m : Machine) (name : String) : Bool := (ofName name).program ∈ m.executables

def fromEnvironment? (m : Machine) : Option Solver := do
  let name ← Entries.get? Environment.solverKey m.environment
  if name ≠ "" ∧ name ≠ auto ∧ isAvailable m name then some (ofName name) else none

def pick? (m : Machine) (names : List String) : Option Solver :=
  (fromEnvironment? m).or ((names.find? (isAvailable m)).map ofName)

end Solver

end InvariantProver
