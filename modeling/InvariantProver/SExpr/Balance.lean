import InvariantProver.Text.Blank

namespace InvariantProver

structure Balance where
  depth : Int := 0
  seen : Bool := false
  quoted : Bool := false
  barred : Bool := false
  deriving DecidableEq

namespace Balance

def step (b : Balance) (c : Char) : Balance :=
  if b.quoted then { b with quoted := c ≠ '"' }
  else if b.barred then { b with barred := c ≠ '|' }
  else if c = '"' then { b with quoted := true, seen := true }
  else if c = '|' then { b with barred := true, seen := true }
  else if c = '(' then { b with depth := b.depth + 1, seen := true }
  else if c = ')' then { b with depth := b.depth - 1 }
  else { b with seen := b.seen || !Text.isBlank c }

def ofText (text : String) : Balance := text.toList.foldl step {}

def isClosed (b : Balance) : Bool := b.seen && b.depth ≤ 0 && !b.quoted && !b.barred

end Balance

def SExpr.isComplete (text : String) : Bool := (Balance.ofText text).isClosed

end InvariantProver
