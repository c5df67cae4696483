import InvariantProver.Session.Basic

namespace InvariantProver

inductive LogEntry
  | declare (r : Ref)
  | assert (t : Term)
  | push
  | pop
  | check
  | values (refs : List Ref)
  | interrupt
  | close

structure ScriptedAnswer where
  result : Except String Answer
  model : Entries String Value := []
  cancel : Bool := false
  interrupt : Bool := false
  block : Bool := false

structure Scripted where
  answers : List ScriptedAnswer := []
  fallback : Option ScriptedAnswer := none
  model : Entries String Value := []
  log : List LogEntry := []

namespace Scripted

def note (entry : LogEntry) (s : Scripted) : Scripted := { s with log := s.log ++ [entry] }

def update (f : Scripted → Scripted) : Hook Scripted Unit :=
  modify fun link => { link with backend := f link.backend }

def interruptHere : Hook Scripted Unit :=
  modify fun link =>
    { link with interrupted := true, backend := link.backend.note .interrupt }

def take : Hook Scripted ScriptedAnswer := do
  let s := (← get).backend
  match s.answers, s.fallback with
  | answer :: rest, _ =>
    update fun s => { s with answers := rest, model := answer.model }
    return answer
  | [], some answer =>
    update fun s => { s with model := answer.model }
    return answer
  | [], none => throw (.solver .noAnswerLeft)

def wait : Hook Scripted Unit := do
  if !(← get).interrupted then
    interruptHere
    modify fun link => { link with waited := true }

def check : Hook Scripted Answer := do
  update (note .check)
  let answer ← take
  if answer.cancel then
    interruptHere
    modify fun link => { link with cancels := link.cancels + 1 }
  if answer.interrupt then interruptHere
  if answer.block then wait
  match answer.result with
  | .ok a => return a
  | .error message => throw (.solver (.refused message))

def valueOf (s : Scripted) (r : Ref) : Value := (Entries.get? r.text s.model).getD r.ty.openValue

instance : Backend Scripted where
  declare r := update (note (.declare r))
  assert t := update (note (.assert t))
  push := update (note .push)
  pop := update (note .pop)
  check := check
  values refs := do
    update (note (.values refs))
    let s := (← get).backend
    return Entries.ofList (refs.map fun r => (r, s.valueOf r))
  interrupt := note .interrupt
  close := update (note .close)

def session (name : String) (script : Scripted) : Session Scripted :=
  { name := name, link := { backend := script } }

end Scripted

end InvariantProver
