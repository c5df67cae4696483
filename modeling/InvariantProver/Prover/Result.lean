import InvariantProver.Number.Shortest
import InvariantProver.Session.Basic
import InvariantProver.TransitionSystem.Trace

namespace InvariantProver

open Text

inductive Verdict
  | falsified (trace : Trace)
  | proved
  | unknown (reason : Option String)

/-- The depth of a result is the length of the counterexample, the depth of the induction, or the
greatest depth known to be free of counterexamples. -/
structure ProofResult where
  property : String
  verdict : Verdict
  depth : Int
  solver : String := "unknown"

def depthExhaustedReason : String := "depth_exhausted"

def inconclusiveReason (reason : Option String) (depth : Int) : String :=
  let inconclusive := "solver inconclusive at depth " ++ intText depth
  match reason with
  | none => inconclusive
  | some text =>
    if text = cancelledReason then cancelledReason
    else if text = "" then inconclusive
    else inconclusive ++ ": " ++ text

namespace ProofResult

def falsified (property : String) (trace : Trace) (solver : String) : ProofResult :=
  ⟨property, .falsified trace, trace.depth, solver⟩

def proved (property : String) (depth : Int) (solver : String) : ProofResult :=
  ⟨property, .proved, depth, solver⟩

def unknown (property reason : String) (depth : Int) (solver : String) : ProofResult :=
  ⟨property, .unknown (some reason), depth, solver⟩

def holds (r : ProofResult) : Bool :=
  match r.verdict with
  | .proved => true
  | _ => false

def isFalsified (r : ProofResult) : Bool :=
  match r.verdict with
  | .falsified _ => true
  | _ => false

def isUnknown (r : ProofResult) : Bool :=
  match r.verdict with
  | .unknown _ => true
  | _ => false

def isCancelled (r : ProofResult) : Bool :=
  match r.verdict with
  | .unknown reason => reason = some cancelledReason
  | _ => false

def text (r : ProofResult) (time : Binary64) : String :=
  let outcome := match r.verdict with
    | .proved => " proved by " ++ intText r.depth ++ "-induction"
    | .falsified _ => " falsified at depth " ++ intText r.depth
    | .unknown reason =>
      " unknown: " ++ reason.getD "None" ++ ", no counterexample up to depth " ++ intText r.depth
  "Property " ++ r.property ++ outcome ++ " (" ++ r.solver ++ ", " ++ time.fixedText ++ "ms)"

end ProofResult

end InvariantProver
