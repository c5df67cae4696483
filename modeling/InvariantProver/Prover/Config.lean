import InvariantProver.Number.Shortest
import InvariantProver.Solver.Selection
import InvariantProver.Text.Quoted

namespace InvariantProver

open Text

structure Settings where
  depthBound : Option Int := some 20
  timeout : Option Binary64 := none
  solver : String := "z3"
  solverTimeout : Option Int := none
  strengthen : Bool := true
  validateTraces : Bool := true
  deriving DecidableEq

structure Overrides where
  depthBound : Option (Option Int) := none
  timeout : Option (Option Binary64) := none
  solver : Option String := none
  solverTimeout : Option (Option Int) := none
  strengthen : Option Bool := none
  validateTraces : Option Bool := none

inductive ConfigError
  | negativeDepth (depth : Int)
  | noTime (timeout : Binary64)
  | noSolverTime (timeout : Int)
  | noSolver
  | unreadable (key text : String)
  deriving DecidableEq

def ConfigError.message : ConfigError → String
  | negativeDepth depth => "depth_bound must be >= 0, got " ++ intText depth
  | noTime timeout => "timeout_s must be > 0, got " ++ timeout.text
  | noSolverTime timeout => "solver_timeout_ms must be > 0, got " ++ intText timeout
  | noSolver => "solver must not be empty"
  | unreadable key text => "invalid value for $" ++ key ++ ": " ++ quoted text

namespace Settings

def checkField {α : Type} (wrong : α → Bool) (error : α → ConfigError) :
    Option α → Except ConfigError Unit
  | some value => if wrong value then .error (error value) else .ok ()
  | none => .ok ()

def check (s : Settings) : Except ConfigError Unit := do
  checkField (· < 0) .negativeDepth s.depthBound
  checkField Binary64.isNonpositive .noTime s.timeout
  checkField (· ≤ 0) .noSolverTime s.solverTimeout
  if s.solver = "" then throw .noSolver

def override (s : Settings) (o : Overrides) : Settings where
  depthBound := o.depthBound.getD s.depthBound
  timeout := o.timeout.getD s.timeout
  solver := o.solver.getD s.solver
  solverTimeout := o.solverTimeout.getD s.solverTimeout
  strengthen := o.strengthen.getD s.strengthen
  validateTraces := o.validateTraces.getD s.validateTraces

end Settings

structure Config extends Settings where
  valid : toSettings.check = .ok ()

namespace Environment

def depthKey : String := "TSPROOF_DEPTH_BOUND"

def timeoutKey : String := "TSPROOF_TIMEOUT_S"

def text? (env : Environment) (key : String) : Option String :=
  match Entries.get? key env with
  | some "" => none
  | value => value

def readDepth (text : String) : Except ConfigError (Option Int) :=
  if (trim text.toList).map Char.toLower = "none".toList then .ok none
  else match readInt? text.toList with
    | some depth => .ok (some depth)
    | none => .error (.unreadable depthKey text)

def readTimeout (text : String) : Except ConfigError (Option Binary64) :=
  match Binary64.read? text.toList with
  | some timeout => .ok (some timeout)
  | none => .error (.unreadable timeoutKey text)

def overrides (env : Environment) : Except ConfigError Overrides := do
  return {
    solver := env.text? solverKey
    depthBound := ← (env.text? depthKey).mapM readDepth
    timeout := ← (env.text? timeoutKey).mapM readTimeout }

end Environment

namespace Config

def ofSettings (s : Settings) : Except ConfigError Config :=
  match h : s.check with
  | .ok () => .ok ⟨s, h⟩
  | .error e => .error e

def ofOverrides (o : Overrides) : Except ConfigError Config := ofSettings (Settings.override {} o)

def ofEnvironment (env : Environment) (o : Overrides) : Except ConfigError Config := do
  ofSettings (Settings.override (Settings.override {} (← env.overrides)) o)

def override (c : Config) (o : Overrides) : Except ConfigError Config :=
  ofSettings (c.toSettings.override o)

end Config

end InvariantProver
