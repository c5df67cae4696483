import InvariantProver.Session.Basic
import InvariantProver.Smt.Formula

namespace InvariantProver

structure Opinion where
  answer : Answer
  model : Ref → Option Value := fun _ => none

abbrev Oracle := List Term → Opinion

def Oracle.silent : Oracle := fun _ => { answer := .unknown none }

structure Memory where
  oracle : Oracle
  /-- The assertions of each open scope, the innermost scope first, in the order of asserting. -/
  frames : List (List Term) := [[]]

namespace Memory

def assertions (m : Memory) : List Term := m.frames.reverse.flatten

def formulas (m : Memory) : List Formula := m.assertions.map Formula.ofTerm

def addAssertion (m : Memory) (t : Term) : Memory :=
  match m.frames with
  | [] => { m with frames := [[t]] }
  | frame :: outer => { m with frames := (frame ++ [t]) :: outer }

def update (f : Memory → Memory) : Hook Memory Unit :=
  modify fun link => { link with backend := f link.backend }

def opinion : Hook Memory Opinion := do
  let m := (← get).backend
  return m.oracle m.assertions

def valueOf (o : Opinion) (r : Ref) : Value := (o.model r).getD r.ty.openValue

instance : Backend Memory where
  declare _ := pure ()
  assert t := update (·.addAssertion t)
  push := update fun m => { m with frames := [] :: m.frames }
  pop := update fun m => { m with frames := m.frames.tail }
  check := do return (← opinion).answer
  values refs := do
    let o ← opinion
    return Entries.ofList (refs.map fun r => (r, valueOf o r))
  interrupt m := m
  close := update fun m => { m with frames := [[]] }

def session (name : String) (oracle : Oracle) : Session Memory :=
  { name := name, link := { backend := { oracle := oracle } } }

end Memory

end InvariantProver
