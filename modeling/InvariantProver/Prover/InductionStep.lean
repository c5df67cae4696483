import InvariantProver.Prover.BaseCase

/-!
The induction step. Its engine holds a path of states that need not start in an initial one, and a
query asks for a path on which a property holds in all states but the last. Without such a path,
and without a violation in as many first states, the property holds in all states that can be reached.
-/

namespace InvariantProver

structure Engines (σ : Type) where
  base : Engine σ
  step : Engine σ

abbrev EnginesM (σ : Type) := ExceptT ProofError (StateM (Engines σ))

namespace Engines

variable {σ : Type}

def onBase {α : Type} (m : EngineM σ α) : EnginesM σ α := fun e =>
  let (result, base) := m.run e.base
  (result, { e with base := base })

def onStep {α : Type} (m : EngineM σ α) : EnginesM σ α := fun e =>
  let (result, step) := m.run e.step
  (result, { e with step := step })

end Engines

namespace InductionStep

open Engine Engines

variable {σ : Type} [Backend σ]

def new (s : TransitionSystem) (session : Session σ) : Engine σ := ⟨s, .step, session, 0⟩

def start : EngineM σ Unit := do
  advance
  advance

def assumed (terms : List Term) (depth : Int) : List Term :=
  (List.range depth.toNat).flatMap fun (i : Nat) => terms.map fun t => t.reindex i

/-- Asks for a path to a violation of a property. Hypotheses hold wherever the property is assumed. -/
def check (hypotheses : List Term) (name : String) : EngineM σ (Outcome Unit) := do
  let p ← property name
  let k := (← get).depth
  query [Term.conj (assumed (p :: hypotheses.filter (· ≠ p)) k), (p.reindex k).negate] (pure ())

def checkAll (hypotheses : List Term) (names : List String) :
    EngineM σ (Entries String (Outcome Unit)) :=
  queryAll (check hypotheses) names

def advanceBoth : EnginesM σ Unit := do
  onBase advance
  onStep advance

def verdict? (name : String) (base step : Engine σ) (bound : Option Int) (o : Outcome Unit) :
    Option ProofResult :=
  match o.finding with
  | .nothing => some (.proved name step.depth step.session.name)
  | .unknown reason => some (.unknown name reason base.depth step.session.name)
  | .found () =>
    if bound.any (· ≤ step.depth) then
      some (.unknown name depthExhaustedReason base.depth step.session.name)
    else none

def loop (name : String) (bound : Option Int) (hypotheses : List Term) :
    Nat → EnginesM σ (Option ProofResult)
  | 0 => return none
  | fuel + 1 => do
    let b ← onBase (BaseCase.check name)
    let base := (← get).base
    match b.finding with
    | .found t => return some (.falsified name t base.session.name)
    | .unknown reason => return some (.unknown name reason (base.depth - 1) base.session.name)
    | .nothing =>
      let o ← onStep (check hypotheses name)
      match verdict? name base (← get).step bound o with
      | some r => return some r
      | none => do
        advanceBoth
        loop name bound hypotheses fuel

/-- Proof of one property by induction. The base case starts one depth before the induction step. -/
def run (name : String) (bound : Option Int) (hypotheses : List Term) (fuel : Nat) :
    EnginesM σ (Option ProofResult) := do
  let _ ← onBase (property name)
  let e ← get
  if e.base.depth ≠ e.step.depth - 1 then throw (.misaligned e.base.depth (e.step.depth - 1))
  loop name bound hypotheses fuel

end InductionStep

end InvariantProver
