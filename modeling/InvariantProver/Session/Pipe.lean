import InvariantProver.Session.Basic
import InvariantProver.Solver.Basic
import InvariantProver.Solver.Peer

/-!
Sessions with an external solver at the other end of a pipe. Every operation is a command, and only
checks and questions wait for a response. An interruption kills the peer; after that the session
sends on without minding that nobody listens.
-/

namespace InvariantProver

structure IgnoredLimit where
  solver : String
  timeout : Int

def IgnoredLimit.message (w : IgnoredLimit) : String :=
  "Solver " ++ w.solver ++ " has no known per-query time limit; ignoring timeout of " ++
    Text.intText w.timeout ++ " ms"

structure Pipe where
  solver : Solver
  timeout : Int := 0
  peer : Peer := {}

namespace Pipe

def limit? (p : Pipe) : Option TimeLimit :=
  if p.timeout = 0 then none else some (p.solver.timeLimit p.timeout)

def argv (p : Pipe) : List String :=
  match p.limit? with
  | some (.arguments args) => p.solver.argv ++ args
  | _ => p.solver.argv

def warnings (p : Pipe) : List IgnoredLimit :=
  match p.limit? with
  | some .unsupported => [⟨p.solver.name, p.timeout⟩]
  | _ => []

def fail {α : Type} (fault : SolverFault) : Hook Pipe α := throw (.solver fault)

def setPeer (peer : Peer) : Hook Pipe Unit :=
  modify fun link => { link with backend := { link.backend with peer := peer } }

def send (c : Command) : Hook Pipe Unit := do
  let link ← get
  match link.backend.peer.write c with
  | .ok peer => setPeer peer
  | .error fault =>
    if !link.interrupted then fail (.stopped link.backend.solver.name fault.message)

/-- The next response, unless the output ends before. An interruption also ends it. -/
def response? : Hook Pipe (Option String) := do
  let pipe := (← get).backend
  let (reading, peer) := pipe.peer.read
  match reading with
  | .response text =>
    setPeer peer
    if "(error".toList.isPrefixOf text.toList then fail (.reported pipe.solver.name text)
    return some text
  | .interruption cancels =>
    setPeer peer.kill.finish
    modify fun link =>
      { link with interrupted := true, cancels := link.cancels + (if cancels then 1 else 0) }
    return none
  | .ended =>
    setPeer peer.finish
    return none

def lost {α : Type} : Hook Pipe α := do
  let pipe := (← get).backend
  fail (.exited pipe.solver.name pipe.peer.exited)

def parsed (text : String) : Hook Pipe SExpr :=
  match SExpr.parseOne text with
  | .ok e => pure e
  | .error e => fail (.unreadable e)

def start : Hook Pipe Unit := do
  let pipe := (← get).backend
  match pipe.peer.start pipe.argv with
  | .error fault => fail (.cannotStart pipe.solver.name fault.message)
  | .ok peer =>
    setPeer peer
    send (.setOption "print-success" "false")
    send (.setOption "produce-models" "true")
    if pipe.limit? = some .command then
      send (.setOption "timeout" (Text.intText pipe.timeout))

def reasonUnknown : Hook Pipe String := do
  send .reasonUnknown
  match ← response? with
  | none => return if (← get).interrupted then cancelledReason else "unknown"
  | some text =>
    match ← parsed text with
    | .list [_, .atom reason] => return reason
    | _ => return text

def check : Hook Pipe Answer := do
  send .checkSat
  match ← response? with
  | none => if (← get).interrupted then return .unknown none else lost
  | some text =>
    match String.ofList (Text.trim text.toList) with
    | "sat" => return .sat
    | "unsat" => return .unsat
    | "unknown" => return .unknown (some (← reasonUnknown))
    | _ => fail (.unexpectedCheck (← get).backend.solver.name text)

def entry (r : Ref) (e : SExpr) : Hook Pipe (Ref × Value) := do
  match e with
  | .list [_, value] =>
    match value.value r.ty with
    | .ok v => return (r, v)
    | .error e => fail (.badValue e)
  | _ => fail (.unexpectedEntry (← get).backend.solver.name e)

def ask (refs : List Ref) : Hook Pipe (Entries Ref Value) := do
  send (.getValue refs)
  match ← response? with
  | none => lost
  | some text =>
    let unexpected {α : Type} : Hook Pipe α := do
      fail (.unexpectedValues (← get).backend.solver.name text)
    match ← parsed text with
    | .list entries =>
      if entries.length ≠ refs.length then unexpected
      else return Entries.ofList (← (refs.zip entries).mapM fun (r, e) => entry r e)
    | .atom _ => unexpected

def values (refs : List Ref) : Hook Pipe (Entries Ref Value) :=
  if refs = [] then pure [] else ask refs

def interrupt (p : Pipe) : Pipe := { p with peer := p.peer.kill }

def close : Hook Pipe Unit := do
  if (← get).backend.peer.isRunning then send .exit
  setPeer (← get).backend.peer.shut

instance : Backend Pipe where
  start := start
  declare r := send (.declare r)
  assert t := send (.assert t)
  push := send .push
  pop := send .pop
  check := check
  values := values
  interrupt := interrupt
  close := close

def session (solver : Solver) (timeout : Int) (peer : Peer) : Session Pipe :=
  { name := solver.name, link := { backend := ⟨solver, timeout, peer⟩ } }

end Pipe

end InvariantProver
