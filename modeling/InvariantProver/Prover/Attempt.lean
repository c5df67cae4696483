import InvariantProver.Prover.Config
import InvariantProver.Prover.InductionStep

/-!
Proof attempts: base case and induction step side by side, in sessions of their own. A round checks
the base case at one depth and the induction step at the next, for all properties that are still
open, and only then decides, so that no property is proved before its base cases are known. An
attempt may be cancelled at any time; what a cancelled round has found does not count.
-/

namespace InvariantProver

structure ReplayWarning where
  property : String
  depth : Int
  system : String

def ReplayWarning.message (w : ReplayWarning) : String :=
  "Counterexample for " ++ w.property ++ " at depth " ++ Text.intText w.depth ++
    " does not replay on " ++ w.system

structure Attempt (σ : Type) where
  system : TransitionSystem
  config : Config
  engines : Engines σ
  cancelled : Bool := false
  opened : List Task := []
  pending : List String := []
  results : Entries String ProofResult := []
  proved : List String := []
  warnings : List ReplayWarning := []

abbrev AttemptM (σ : Type) := ExceptT ProofError (StateM (Attempt σ))

namespace Engines

variable {σ : Type}

def get (e : Engines σ) : Task → Engine σ
  | .base => e.base
  | .step => e.step

def set (e : Engines σ) (engine : Engine σ) : Task → Engines σ
  | .base => { e with base := engine }
  | .step => { e with step := engine }

def link (e : Engines σ) (task : Task) : Link σ := (e.get task).session.link

def cancels (e : Engines σ) : Nat := (e.link .base).cancels + (e.link .step).cancels

/-- Whether time ran out: a check waited, and nothing but the end of the time can have ended that. -/
def expired (e : Engines σ) : Bool :=
  ((e.link .base).waited || (e.link .step).waited) && e.cancels = 0

/-- The interruptions that reach a session from elsewhere: one for each request of the other session
to cancel, one when time runs out, less the one that its own check has waited for. -/
def interruptions (e : Engines σ) (task other : Task) : Nat :=
  (e.link other).cancels + e.expired.toNat - (e.link task).waited.toNat

end Engines

def Task.other : Task → Task
  | base => step
  | step => base

def decide? (name : String) (base step : Engine σ) (b : Outcome Trace) (o : Outcome Unit) :
    Option ProofResult :=
  match b.finding, o.finding with
  | .found t, _ => some (.falsified name t base.session.name)
  | .unknown reason, _ => some (.unknown name reason (b.depth - 1) base.session.name)
  | .nothing, .nothing => some (.proved name o.depth step.session.name)
  | .nothing, .unknown reason => some (.unknown name reason b.depth step.session.name)
  | .nothing, .found () => none

namespace Attempt

variable {σ : Type}

def isCancelled (a : Attempt σ) : Bool := a.cancelled || 0 < a.engines.cancels

def isStopped (a : Attempt σ) : Bool := a.isCancelled || a.engines.expired

def finish (r : ProofResult) (a : Attempt σ) : Attempt σ :=
  { a with
    results := a.results.put r.property r
    pending := a.pending.erase r.property
    proved := if r.holds then a.proved ++ [r.property] else a.proved }

def finishAll (rs : List ProofResult) (a : Attempt σ) : Attempt σ :=
  rs.foldl (fun a r => a.finish r) a

def giveUp (reason : String) (depth : Int) (a : Attempt σ) : Attempt σ :=
  a.finishAll (a.pending.map fun name =>
    .unknown name reason depth a.engines.base.session.name)

def replayWarning? (a : Attempt σ) (name : String) (o : Outcome Trace) : Option ReplayWarning :=
  match o.finding with
  | .found t =>
    if a.config.validateTraces && t.isExact && (a.system.replays t name).toOption = some false then
      some ⟨name, o.depth, a.system.name⟩
    else none
  | _ => none

/-- The results of a round. Proofs come last, in the order of their names. -/
def decisions (a : Attempt σ) (bs : Entries String (Outcome Trace))
    (os : Entries String (Outcome Unit)) : List ProofResult :=
  let results := a.pending.filterMap fun name => do
    let b ← Entries.get? name bs
    let o ← Entries.get? name os
    decide? name a.engines.base a.engines.step b o
  let (proofs, others) := results.partition ProofResult.holds
  others ++ proofs.mergeSort fun r s => decide (r.property ≤ s.property)

def replayWarnings (a : Attempt σ) (bs : Entries String (Outcome Trace)) : List ReplayWarning :=
  a.pending.filterMap fun name => do a.replayWarning? name (← Entries.get? name bs)

def decideRound (bs : Entries String (Outcome Trace)) (os : Entries String (Outcome Unit))
    (a : Attempt σ) : Attempt σ :=
  { a with warnings := a.warnings ++ a.replayWarnings bs }.finishAll (a.decisions bs os)

def lemmas (a : Attempt σ) : List Term :=
  if a.config.strengthen then a.proved.filterMap fun name => (a.system.property name).toOption
  else []

def onEngine {α : Type} (task : Task) (m : EngineM σ α) : AttemptM σ α := fun a =>
  let (result, engine) := m.run (a.engines.get task)
  (result, { a with engines := a.engines.set engine task })

variable [Backend σ]

def deliver (a : Attempt σ) : Attempt σ :=
  let interrupted (task : Task) : Engine σ :=
    let engine := a.engines.get task
    let times := a.engines.interruptions task task.other
    { engine with session := (List.range times).foldl (fun s _ => s.interrupt) engine.session }
  { a with engines := ⟨interrupted .base, interrupted .step⟩ }

/-- Both tasks of a round. Both are done, whatever becomes of the other. -/
def checks : AttemptM σ (Entries String (Outcome Trace) × Entries String (Outcome Unit)) := fun a =>
  let (bs, base) := (BaseCase.checkAll a.pending).run a.engines.base
  let (os, step) := (InductionStep.checkAll a.lemmas a.pending).run a.engines.step
  (do return (← bs, ← os), deliver { a with engines := ⟨base, step⟩ })

def stop : AttemptM σ Unit :=
  modify fun a => a.giveUp cancelledReason (a.engines.base.depth - 1)

def round : AttemptM σ Bool := do
  if (← get).isStopped then
    stop
    return true
  let (bs, os) ← checks
  if (← get).isStopped then
    stop
    return true
  modify (decideRound bs os)
  let a ← get
  let depth := a.engines.base.depth
  if a.pending.isEmpty then return true
  if a.config.depthBound.any (· ≤ depth) then
    modify (giveUp depthExhaustedReason depth)
    return true
  onEngine .base Engine.advance
  onEngine .step Engine.advance
  return false

def rounds : Nat → AttemptM σ Bool
  | 0 => return false
  | fuel + 1 => do
    if ← round then return true
    rounds fuel

/-- Opens the session of a task. A session that is opened late is interrupted at once. -/
def openSession (task : Task) : AttemptM σ Unit := do
  onEngine task (Engine.talk Session.start)
  modify fun a => { a with opened := a.opened ++ [task] }
  if (← get).isCancelled then onEngine task (modify fun e => { e with session := e.session.interrupt })

def closeSession (task : Task) : AttemptM σ Unit := onEngine task (Engine.talk Session.close)

def withSession {α : Type} (task : Task) (m : AttemptM σ α) : AttemptM σ α := do
  openSession task
  ensuring m (closeSession task)

def resultsFor (a : Attempt σ) (names : List String) : Entries String ProofResult :=
  Entries.ofList (names.filterMap fun name => (Entries.get? name a.results).map (name, ·))

def run (names : List String) (fuel : Nat) : AttemptM σ (Option (Entries String ProofResult)) := do
  names.forM fun name => do
    let _ ← onEngine .base (Engine.property name)
  if names.isEmpty then return some []
  modify fun a => { a with pending := names }
  let finished ← withSession .base (withSession .step (do
    onEngine .base BaseCase.start
    onEngine .step InductionStep.start
    rounds fuel))
  let a ← get
  return if finished then some (a.resultsFor names) else none

def new (s : TransitionSystem) (c : Config) (cancelled : Bool) (sessions : Task → Session σ) :
    Attempt σ where
  system := s
  config := c
  engines := ⟨BaseCase.new s (sessions .base), InductionStep.new s (sessions .step)⟩
  cancelled := cancelled

end Attempt

end InvariantProver
