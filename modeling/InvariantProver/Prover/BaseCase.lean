import InvariantProver.Prover.Engine

namespace InvariantProver.BaseCase

open Engine

variable {σ : Type} [Backend σ]

def new (s : TransitionSystem) (session : Session σ) : Engine σ := ⟨s, .base, session, 0⟩

def start : EngineM σ Unit := advance

def valueOf (values : Entries Ref Value) (r : Ref) : Except ProofError (String × Value) :=
  match Entries.get? r values with
  | some v => .ok (r.var.name, v)
  | none => .error (.missingValue r)

def snapshot (s : TransitionSystem) (values : Entries Ref Value) (i : Nat) :
    Except ProofError Snapshot :=
  collect ((s.refsAt i).map (valueOf values))

/-- Reads a counterexample. A session that leaves out a value fails the reading. -/
def trace : EngineM σ Trace := do
  let e ← get
  let values ← talk (Session.values (e.system.refsBelow e.placed))
  let states ← liftM (collect ((List.range e.placed).map (snapshot e.system values)))
  return ⟨e.depth, states, e.depth⟩

def check (name : String) : EngineM σ (Outcome Trace) := do
  let p ← property name
  query [(p.reindex (← get).depth).negate] trace

def checkAll (names : List String) : EngineM σ (Entries String (Outcome Trace)) :=
  queryAll check names

/-- Checks a property at one depth after the other, up to a bound if there is one. An execution
without violations proves nothing, so the property is falsified or unknown. -/
def run (name : String) (bound : Option Int) : Nat → EngineM σ (Option ProofResult)
  | 0 => return none
  | fuel + 1 => do
    let o ← check name
    let e ← get
    match o.finding with
    | .found t => return some (.falsified name t e.session.name)
    | .unknown reason => return some (.unknown name reason (e.depth - 1) e.session.name)
    | .nothing =>
      if bound.any (· ≤ e.depth) then
        return some (.unknown name depthExhaustedReason e.depth e.session.name)
      else do
        advance
        run name bound fuel

end InvariantProver.BaseCase
