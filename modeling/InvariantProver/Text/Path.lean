namespace InvariantProver.Text

structure Path where
  root : String
  parts : List String
  deriving DecidableEq

namespace Path

def rootOf (s : String) : String :=
  match (s.toList.takeWhile (· = '/')).length with
  | 0 => ""
  | 2 => "//"
  | _ => "/"

def ofText (s : String) : Path where
  root := rootOf s
  parts := (s.splitOn "/").filter fun part => part ≠ "" ∧ part ≠ "."

def text (p : Path) : String :=
  if p.root = "" ∧ p.parts = [] then "." else p.root ++ "/".intercalate p.parts

def name? (p : Path) : Option String := p.parts.getLast?

end Path

end InvariantProver.Text
