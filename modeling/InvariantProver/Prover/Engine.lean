import InvariantProver.Data.Cleanup
import InvariantProver.Prover.Result
import InvariantProver.Term.Construction
import InvariantProver.TransitionSystem.Unrolling

/-!
Engines: systems placed in sessions. An engine adds one step after the other for good, and asks
queries in scopes of their own, so that between queries its session holds the steps and nothing else.
-/

namespace InvariantProver

inductive ProofError
  | session (e : SessionError)
  | unknownProperty (e : UnknownProperty)
  | typing (e : TypeError)
  | misaligned (depth expected : Int)
  | missingValue (r : Ref)

def misalignedMessage (depth expected : Int) : String :=
  "base case engine is at depth " ++ Text.intText depth ++ ", expected " ++ Text.intText expected

inductive Task
  | base
  | step
  deriving DecidableEq

def Task.assumptions (task : Task) (s : TransitionSystem) (i : Nat) : List Term :=
  match i, task with
  | 0, .base => [s.init]
  | 0, .step => []
  | i + 1, _ => [s.transAt i]

inductive Finding (α : Type)
  | found (witness : α)
  | nothing
  | unknown (reason : String)

structure Outcome (α : Type) where
  depth : Int
  finding : Finding α

structure Engine (σ : Type) where
  system : TransitionSystem
  task : Task
  session : Session σ
  placed : Nat := 0

abbrev EngineM (σ : Type) := ExceptT ProofError (StateM (Engine σ))

namespace Engine

variable {σ : Type}

def depth (e : Engine σ) : Int := e.placed - 1

def talk {α : Type} (m : SessionM σ α) : EngineM σ α := fun e =>
  let (result, session) := m.run e.session
  (result.mapError .session, { e with session := session })

def property (name : String) : EngineM σ Term := do
  match (← get).system.property name with
  | .ok t => return t
  | .error e => throw (.unknownProperty e)

def typed (t : Except TypeError Term) : EngineM σ Term :=
  match t with
  | .ok t => pure t
  | .error e => throw (.typing e)

variable [Backend σ]

def advance : EngineM σ Unit := do
  let e ← get
  e.system.variables.forM fun v => talk (Session.declare v e.placed)
  (e.task.assumptions e.system e.placed).forM fun t => talk (Session.assert t)
  modify fun e => { e with placed := e.placed + 1 }

/-- Asserts terms, checks them and reads what a satisfiable check has found, all in one scope. -/
def query {α : Type} (terms : List (Except TypeError Term)) (read : EngineM σ α) :
    EngineM σ (Outcome α) := do
  let depth := (← get).depth
  talk Session.push
  ensuring
    (do
      terms.forM fun t => do talk (Session.assert (← typed t))
      match ← talk Session.check with
      | .sat => return ⟨depth, .found (← read)⟩
      | .unsat => return ⟨depth, .nothing⟩
      | .unknown _ =>
        return ⟨depth, .unknown (inconclusiveReason (← get).session.reason depth)⟩)
    (talk Session.pop)

/-- Queries properties in turn. Of two outcomes for one name the later one counts. -/
def queryAll {α : Type} (one : String → EngineM σ (Outcome α)) (names : List String) :
    EngineM σ (Entries String (Outcome α)) := do
  return Entries.ofList (← names.mapM fun name => do return (name, ← one name))

end Engine

end InvariantProver
