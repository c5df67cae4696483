import InvariantProver.Term.Evaluation
import InvariantProver.TransitionSystem.Basic

namespace InvariantProver

open Text

abbrev Snapshot := Entries String Value

structure Trace where
  depth : Int
  states : List Snapshot
  /-- When the property fails. Times below zero count from the end. -/
  violation : Int

inductive ReplayError
  | unknownProperty (e : UnknownProperty)
  | beforeStart
  deriving DecidableEq

def ReplayError.message : ReplayError → String
  | unknownProperty e => e.message
  | beforeStart => "list index out of range"

namespace Trace

def valuesOf? (t : Trace) (name : String) : Option (List Value) := t.states.mapM (Entries.get? name)

def isExact (t : Trace) : Bool := t.states.all fun state => state.all (·.2.isExact)

def stateText (time : Nat) (state : Snapshot) : List String :=
  let sorted := state.mergeSort fun a b => decide (a.1 ≤ b.1)
  ("Time " ++ natText time ++ ":") ::
    sorted.map (fun (name, value) => "  " ++ name ++ " = " ++ value.text) ++ [""]

def text (t : Trace) : String :=
  let states := t.states.zipIdx.flatMap fun (state, time) => stateText time state
  "\n".intercalate (["Counterexample trace (length " ++ intText t.depth ++ "):", ""] ++ states ++
    ["Property violated at time " ++ intText t.violation])

def stateAt? (t : Trace) (time : Int) : Option Snapshot :=
  let i := if time < 0 then t.states.length + time else time
  if i < 0 then none else t.states[i.toNat]?

end Trace

def Valuation.ofStates (vs : List Variable) (states : List Snapshot) : Valuation := fun r =>
  if r.var ∈ vs ∧ 0 ≤ r.step then
    states[r.step.toNat]?.bind (Entries.get? r.var.name)
  else none

namespace TransitionSystem

def truth? (s : TransitionSystem) (t : Term) (states : List Snapshot) : Option Bool :=
  (t.evaluate (Valuation.ofStates s.variables states)).toOption.map Scalar.truth

def follows (s : TransitionSystem) (a b : Snapshot) : Bool := s.truth? s.trans [a, b] = some true

def isPath (s : TransitionSystem) : List Snapshot → Bool
  | a :: b :: rest => s.follows a b && s.isPath (b :: rest)
  | _ => true

def isExecution (s : TransitionSystem) (states : List Snapshot) : Bool :=
  (match states with
    | [] => false
    | first :: _ => s.truth? s.init [first] = some true) && s.isPath states

def replays (s : TransitionSystem) (t : Trace) (name : String) : Except ReplayError Bool := do
  let p ← (s.property name).mapError .unknownProperty
  if t.states.length ≤ t.violation || !t.isExact || !s.isExecution t.states then return false
  match t.stateAt? t.violation with
  | none => throw .beforeStart
  | some state => return s.truth? p [state] = some false

end TransitionSystem

end InvariantProver
