import InvariantProver.Term.Substitution
import InvariantProver.TransitionSystem.Basic

namespace InvariantProver

namespace TransitionSystem

def refsAt (s : TransitionSystem) (i : Int) : List Ref := s.variables.map fun v => ⟨v, i⟩

def refsBelow (s : TransitionSystem) (n : Nat) : List Ref :=
  ((List.range n).map fun (i : Nat) => s.refsAt i).flatten

def transAt (s : TransitionSystem) (i : Int) : Term := s.trans.reindex i

end TransitionSystem

structure Unrolling where
  depth : Nat
  steps : List (List Ref)
  init : Term
  trans : List Term

def Unrolling.assertions (u : Unrolling) : List Term := u.init :: u.trans

def Unrolling.refs (u : Unrolling) : List Ref := u.steps.flatten

def TransitionSystem.unrolling (s : TransitionSystem) (depth : Nat) : Unrolling where
  depth := depth
  steps := (List.range (depth + 1)).map fun (i : Nat) => s.refsAt i
  init := s.init
  trans := (List.range depth).map fun (i : Nat) => s.transAt i

structure NegativeDepth where
  depth : Int
  deriving DecidableEq

def NegativeDepth.message (e : NegativeDepth) : String :=
  "unrolling depth must be >= 0, got " ++ Text.intText e.depth

def TransitionSystem.unroll (s : TransitionSystem) (depth : Int) : Except NegativeDepth Unrolling :=
  if depth < 0 then .error ⟨depth⟩ else .ok (s.unrolling depth.toNat)

end InvariantProver
