import InvariantProver.Proofs.Prover.Alignment

namespace InvariantProver

inductive Call
  | advanceBase
  | advanceStep
  | checkBase (names : List String)
  | checkStep (hypotheses : List Term) (names : List String)
  | runBase (name : String) (bound : Option Int) (fuel : Nat)
  | run (name : String) (bound : Option Int) (hypotheses : List Term) (fuel : Nat)

namespace Engines

open Session Engine

variable {σ : Type} [Backend σ]

def perform : Call → EnginesM σ Unit
  | .advanceBase => onBase Engine.advance
  | .advanceStep => onStep Engine.advance
  | .checkBase names => do let _ ← onBase (BaseCase.checkAll names)
  | .checkStep hypotheses names => do let _ ← onStep (InductionStep.checkAll hypotheses names)
  | .runBase name bound fuel => do let _ ← onBase (BaseCase.run name bound fuel)
  | .run name bound hypotheses fuel => do let _ ← InductionStep.run name bound hypotheses fuel

/-- The engines after some calls. A call that has failed leaves what it has changed. -/
def after (e : Engines σ) (calls : List Call) : Engines σ :=
  calls.foldl (fun e call => (outcome (perform call) e).2) e

def new (s : TransitionSystem) (base step : Session σ) : Engines σ :=
  ⟨BaseCase.new s base, InductionStep.new s step⟩

def start : EnginesM σ Unit := do
  onBase BaseCase.start
  onStep InductionStep.start

end Engines

section

variable {σ : Type} [Backend σ]

structure Engine.Bears (course : Course) (I : Engine σ → Prop) : Prop where
  advance : Keeps course I (Engine.advance : EngineM σ Unit)
  base (name : String) : Keeps course I (BaseCase.check name)
  step (hypotheses : List Term) (name : String) : Keeps course I (InductionStep.check hypotheses name)

structure Engines.Each (I J : Engine σ → Prop) (e : Engines σ) : Prop where
  base : I e.base
  step : J e.step

variable {course : Course} {I J : Engine σ → Prop} {α : Type}

omit [Backend σ] in
theorem Engines.keeps_onBase {m : EngineM σ α} (h : Keeps course I m) :
    Keeps course (Each I J) (onBase m) := by
  rintro e e' r ⟨hbase, hstep⟩ hs hr
  obtain ⟨e₁, hm, rfl⟩ := onBase_eq hs
  exact ⟨h hbase hm hr, hstep⟩

omit [Backend σ] in
theorem Engines.keeps_onStep {m : EngineM σ α} (h : Keeps course J m) :
    Keeps course (Each I J) (onStep m) := by
  rintro e e' r ⟨hbase, hstep⟩ hs hr
  obtain ⟨e₁, hm, rfl⟩ := onStep_eq hs
  exact ⟨hbase, h hstep hm hr⟩

variable (hI : Engine.Bears course I)
include hI

theorem BaseCase.keeps_run (name : String) (bound : Option Int) (fuel : Nat) :
    Keeps course I (run name bound fuel) := by
  induction fuel with
  | zero => exact .pure _
  | succ fuel ih =>
    unfold run
    refine .bind (hI.base name) fun o => .bind .get fun e => ?_
    cases o.finding with
    | found t => exact .pure _
    | unknown reason => exact .pure _
    | nothing =>
      dsimp only
      split
      · exact .pure _
      · exact .bind hI.advance fun _ => ih

variable (hJ : Engine.Bears course J)
include hJ

theorem InductionStep.keeps_loop (name : String) (bound : Option Int) (hypotheses : List Term)
    (fuel : Nat) : Keeps course (Engines.Each I J) (loop name bound hypotheses fuel) := by
  induction fuel with
  | zero => exact .pure _
  | succ fuel ih =>
    unfold loop
    refine .bind (Engines.keeps_onBase (hI.base name)) fun b => .bind .get fun e => ?_
    cases b.finding with
    | found t => exact .pure _
    | unknown reason => exact .pure _
    | nothing =>
      refine .bind (Engines.keeps_onStep (hJ.step hypotheses name)) fun o => .bind .get fun e' => ?_
      cases verdict? name e.base e'.step bound o with
      | some r => exact .pure _
      | none =>
        refine .bind (.bind (Engines.keeps_onBase hI.advance) fun _ => ?_) fun _ => ih
        exact Engines.keeps_onStep hJ.advance

theorem InductionStep.keeps_run (name : String) (bound : Option Int) (hypotheses : List Term)
    (fuel : Nat) : Keeps course (Engines.Each I J) (run name bound hypotheses fuel) := by
  unfold run
  refine .bind (Engines.keeps_onBase (Engine.keeps_property name)) fun _ => .bind .get fun e => ?_
  split
  · exact .bind (.throw _) fun _ => keeps_loop hI hJ name bound hypotheses fuel
  · exact keeps_loop hI hJ name bound hypotheses fuel

theorem Engines.keeps_start : Keeps course (Each I J) start :=
  .bind (keeps_onBase hI.advance) fun _ => keeps_onStep (.bind hJ.advance fun _ => hJ.advance)

theorem Engines.keeps_perform (call : Call) : Keeps course (Each I J) (perform call) := by
  cases call with
  | advanceBase => exact keeps_onBase hI.advance
  | advanceStep => exact keeps_onStep hJ.advance
  | checkBase names => exact .bind (keeps_onBase (Engine.keeps_queryAll hI.base names)) fun _ => .pure _
  | checkStep hypotheses names =>
    exact .bind (keeps_onStep (Engine.keeps_queryAll (hJ.step hypotheses) names)) fun _ => .pure _
  | runBase name bound fuel =>
    exact .bind (keeps_onBase (BaseCase.keeps_run hI name bound fuel)) fun _ => .pure _
  | run name bound hypotheses fuel =>
    exact .bind (InductionStep.keeps_run hI hJ name bound hypotheses fuel) fun _ => .pure _

end

section

variable {σ : Type} [Backend σ] {I J : Engine σ → Prop}

theorem Engines.Each.after (hI : Engine.Bears .any I) (hJ : Engine.Bears .any J) {e : Engines σ}
    (h : e.Each I J) (calls : List Call) : (e.after calls).Each I J := by
  induction calls generalizing e with
  | nil => exact h
  | cons call calls ih => exact ih (keeps_perform hI hJ call h rfl trivial)

end

section

open Session

variable {σ : Type} [Backend σ] {course : Course} {base step : Session σ} {s : TransitionSystem}

theorem Engine.bears_standing {s₀ : Session σ} (hscopes : s₀.scopes = [[]]) (task : Task) (n : Nat) :
    Bears course (Standing course s₀ s task (n ≤ ·)) where
  advance := .keeps_advance hscopes
  base := BaseCase.keeps_check hscopes
  step := InductionStep.keeps_check hscopes

structure Engines.Working (course : Course) (base step : Session σ) (s : TransitionSystem)
    (e : Engines σ) : Prop where
  base : e.base.Standing course base s .base (1 ≤ ·)
  step : e.step.Standing course step s .step (2 ≤ ·)

variable (hbase : base.scopes = [[]]) (hstep : step.scopes = [[]])
include hbase hstep

theorem Engines.Working.after {e : Engines σ} (h : e.Working .any base step s) (calls : List Call) :
    (e.after calls).Working .any base step s := by
  have heach := Each.after (Engine.bears_standing hbase .base 1) (Engine.bears_standing hstep .step 2)
    ⟨h.base, h.step⟩ calls
  exact ⟨heach.base, heach.step⟩

theorem Engines.working_start {e : Engines σ} (hbaseOpen : base.closed = false)
    (hstepOpen : step.closed = false) (hs : outcome start (new s base step) = (.ok (), e)) :
    e.Working course base step s := by
  obtain ⟨⟨⟩, e₁, hstartBase, hstartStep⟩ := outcome_bind_ok.mp hs
  obtain ⟨b, hb, rfl⟩ := onBase_eq hstartBase
  obtain ⟨t, ht, rfl⟩ := onStep_eq hstartStep
  obtain ⟨⟨⟩, t₁, ht₁, ht₂⟩ := outcome_bind_ok.mp ht
  have hbaseNew : (BaseCase.new s base).Standing course base s .base (· = 0) :=
    ⟨.new hbaseOpen, rfl⟩
  have hstepNew : (InductionStep.new s step).Standing course step s .step (· = 0) :=
    ⟨.new hstepOpen, rfl⟩
  obtain ⟨hbaseFollows, hone⟩ := hbaseNew.advance hbase hb
  obtain ⟨hstepFollows, htwo⟩ := (hstepNew.advance hstep ht₁).advance hstep ht₂
  exact ⟨⟨hbaseFollows, Nat.le_of_eq hone.symm⟩, hstepFollows, Nat.le_of_eq htwo.symm⟩

end

end InvariantProver
