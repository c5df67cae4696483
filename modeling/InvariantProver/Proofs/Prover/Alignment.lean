import InvariantProver.Proofs.Prover.Checks

namespace InvariantProver.Engines

open Session Engine

variable {σ α : Type}

theorem outcome_onBase (m : EngineM σ α) (e : Engines σ) :
    outcome (onBase m) e = ((outcome m e.base).1, { e with base := (outcome m e.base).2 }) := rfl

theorem outcome_onStep (m : EngineM σ α) (e : Engines σ) :
    outcome (onStep m) e = ((outcome m e.step).1, { e with step := (outcome m e.step).2 }) := rfl

section

variable {m : EngineM σ α} {e e' : Engines σ} {r : Except ProofError α}

theorem onBase_eq (h : outcome (onBase m) e = (r, e')) :
    ∃ base, outcome m e.base = (r, base) ∧ e' = { e with base := base } := by
  rw [outcome_onBase] at h
  obtain ⟨hr, rfl⟩ := Prod.mk.inj h
  exact ⟨_, Prod.ext hr rfl, rfl⟩

theorem onStep_eq (h : outcome (onStep m) e = (r, e')) :
    ∃ step, outcome m e.step = (r, step) ∧ e' = { e with step := step } := by
  rw [outcome_onStep] at h
  obtain ⟨hr, rfl⟩ := Prod.mk.inj h
  exact ⟨_, Prod.ext hr rfl, rfl⟩

end

variable [Backend σ]

structure Aligned (course : Course) (base step : Session σ) (s : TransitionSystem) (n : Nat)
    (e : Engines σ) : Prop where
  base : e.base.Standing course base s .base (· = n + 1)
  step : e.step.Standing course step s .step (· = n + 2)

section

variable {course : Course} {z : ZeroReading} {base step : Session σ} {s : TransitionSystem} {n : Nat}
  {e e' : Engines σ} {name : String} {hypotheses : List Term}

theorem Aligned.depth (h : Aligned course base step s n e) : e.base.depth = n :=
  depth_of_placed h.base.2

theorem Aligned.advance {b t : Engine σ} (h : Aligned course base step s n e)
    (hbase : base.scopes = [[]]) (hstep : step.scopes = [[]])
    (hb : outcome Engine.advance e.base = (.ok (), b))
    (ht : outcome Engine.advance e.step = (.ok (), t)) : Aligned course base step s (n + 1) ⟨b, t⟩ :=
  ⟨h.base.advance hbase hb, h.step.advance hstep ht⟩

theorem Aligned.check_base {o : Outcome Trace} (h : Aligned course base step s n e)
    (hbase : Truthful course z base) (hs : outcome (onBase (BaseCase.check name)) e = (.ok o, e')) :
    Aligned course base step s n e' ∧ BaseCase.Supports z s (GivesModels course z base) n name o := by
  obtain ⟨b, ho, rfl⟩ := onBase_eq hs
  have hb := BaseCase.keeps_check hbase.scopes name h.base ho (course.allows_ok _)
  exact ⟨⟨hb, h.step⟩, BaseCase.supports_of_check hbase h.base ho⟩

theorem Aligned.check_step {o : Outcome Unit} (h : Aligned course base step s n e)
    (hstep : Truthful course z step) (hsteps : ∀ t ∈ hypotheses, ∀ r ∈ t.refs, r.step = 0)
    (hs : outcome (onStep (InductionStep.check hypotheses name)) e = (.ok o, e')) :
    Aligned course base step s n e' ∧ InductionStep.Supports z s hypotheses (n + 1) name o := by
  obtain ⟨t, ho, rfl⟩ := onStep_eq hs
  have ht := InductionStep.keeps_check hstep.scopes hypotheses name h.step ho (course.allows_ok _)
  exact ⟨⟨h.base, ht⟩, InductionStep.supports_of_check hstep h.step hsteps ho⟩

end

end InvariantProver.Engines
