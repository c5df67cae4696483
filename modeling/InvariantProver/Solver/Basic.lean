import InvariantProver.Text.Numeral
import InvariantProver.Text.Path

namespace InvariantProver

open Text

structure Solver where
  name : String
  program : String
  arguments : List String := []
  deriving DecidableEq

inductive TimeLimit
  | command
  | arguments (args : List String)
  | unsupported
  deriving DecidableEq

namespace Solver

def argv (s : Solver) : List String := s.program :: s.arguments

def known : List Solver :=
  let incremental := ["--lang", "smt2", "--incremental", "--produce-models"]
  [⟨"z3", "z3", ["-in", "-smt2"]⟩, ⟨"cvc5", "cvc5", incremental⟩, ⟨"cvc4", "cvc4", incremental⟩,
    ⟨"yices", "yices-smt2", ["--incremental"]⟩, ⟨"yices-smt2", "yices-smt2", ["--incremental"]⟩]

def ofPath (s : String) : Solver :=
  let path := Path.ofText s
  ⟨path.name?.getD path.text, path.text, []⟩

def ofName (s : String) : Solver := (known.find? (·.name = s)).getD (ofPath s)

def wholeSeconds (ms : Int) : Int := max 1 (-(-ms).fdiv 1000)

def timeLimit (s : Solver) (ms : Int) : TimeLimit :=
  match (Path.ofText s.program).name? with
  | some "z3" => .command
  | some "cvc5" => .arguments ["--tlimit-per=" ++ intText ms]
  | some "cvc4" => .arguments ["--tlimit-per=" ++ intText ms]
  | some "yices-smt2" => .arguments ["--timeout=" ++ intText (wholeSeconds ms)]
  | _ => .unsupported

end Solver

end InvariantProver
