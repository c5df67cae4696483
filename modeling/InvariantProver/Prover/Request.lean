import InvariantProver.Prover.Attempt
import InvariantProver.Session.Pipe
import InvariantProver.TransitionSystem.Building

namespace InvariantProver

inductive SolverPlace
  | memory
  | external (s : Solver)

def Settings.place (s : Settings) (m : Machine) : Except SolverFault SolverPlace :=
  if s.solver = "z3" then .ok .memory
  else if s.solver = Solver.auto then
    match Solver.pick? m Solver.preferred with
    | some solver => .ok (.external solver)
    | none => .error .noneFound
  else .ok (.external (.ofName s.solver))

def Settings.pipe (s : Settings) (solver : Solver) (peer : Peer) : Session Pipe :=
  Pipe.session solver (s.solverTimeout.getD 0) peer

inductive Subject
  | system (s : TransitionSystem)
  | script (s : Script)

inductive RequestError
  | build (e : BuildError)
  | config (e : ConfigError)

structure Request where
  subject : Subject
  names : Option (List String) := none
  depthBound : Option Int := none
  config : Option Config := none
  environment : Environment := []

namespace Request

def system (r : Request) : Except BuildError TransitionSystem :=
  match r.subject with
  | .system s => .ok s
  | .script s => return (← s.build).system

def settings (r : Request) : Except ConfigError Config := do
  let c ← match r.config with
    | some c => pure c
    | none => Config.ofEnvironment r.environment {}
  match r.depthBound with
  | some depth => c.override { depthBound := some (some depth) }
  | none => return c

def attempt {σ : Type} (r : Request) (sessions : Task → Session σ) :
    Except RequestError (Attempt σ × List String) := do
  let s ← r.system.mapError .build
  let c ← r.settings.mapError .config
  return (.new s c false sessions, r.names.getD s.propertyNames)

end Request

end InvariantProver
