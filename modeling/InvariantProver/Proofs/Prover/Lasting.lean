import InvariantProver.Proofs.Prover.Inheritance
import InvariantProver.Proofs.Prover.Rounds

namespace InvariantProver

def Engine.Asks {σ : Type} (k : Nat) (e : Engine σ) : Prop := k ≤ e.session.link.cancels

namespace Engine

open Session

variable {σ : Type} [Backend σ] {k : Nat}

omit [Backend σ] in
theorem asks_of {α : Type} {m : EngineM σ α}
    (h : ∀ s, Keeps .any (On s fun t => k ≤ t.link.cancels) m) : Keeps .any (Engine.Asks k) m :=
  keeps_of_on h

variable (hl : Backend.Lasting σ)
include hl

theorem preserves_cancels (vs : List Variable) :
    Session.Preserves vs fun t : Session σ => k ≤ t.link.cancels :=
  fun act _ _ => keeps_perform (hl k) act

theorem asks_advance : Keeps .any (Engine.Asks k) (advance : EngineM σ Unit) :=
  asks_of fun s => on_advance (preserves_cancels hl s.variables)

theorem asks_base (name : String) : Keeps .any (Engine.Asks k) (BaseCase.check (σ := σ) name) :=
  asks_of fun s => on_base (preserves_cancels hl s.variables) name

theorem asks_step (hypotheses : List Term) (name : String) :
    Keeps .any (Engine.Asks k) (InductionStep.check (σ := σ) hypotheses name) :=
  asks_of fun s => on_step (preserves_cancels hl s.variables) hypotheses name

end Engine

namespace Attempt

open Session Engine

variable {σ : Type} [Backend σ] (hl : Backend.Lasting σ)

abbrev Stays {α : Type} (m : AttemptM σ α) : Prop := Keeps .any (fun a => a.isCancelled = true) m

omit [Backend σ] in
theorem isCancelled_iff {a : Attempt σ} :
    a.isCancelled = true ↔ a.cancelled = true ∨
      0 < a.engines.base.session.link.cancels + a.engines.step.session.link.cancels := by
  rw [isCancelled, Bool.or_eq_true, decide_eq_true_iff]
  rfl

omit [Backend σ] in
theorem stays_onEngine {α : Type} {m : EngineM σ α} (task : Task)
    (h : ∀ k, Keeps .any (Engine.Asks k) m) : Stays (onEngine task m) := by
  intro a a' r hI hs _
  rw [outcome_onEngine] at hs
  obtain ⟨-, rfl⟩ := Prod.mk.inj hs
  rw [isCancelled_iff] at hI ⊢
  refine hI.imp_right fun hasked => ?_
  have hgrows : (a.engines.get task).session.link.cancels ≤
      (outcome m (a.engines.get task)).2.session.link.cancels := h _ (Nat.le_refl _) rfl trivial
  cases task with
  | base =>
    simp only [Engines.get, Engines.set] at hgrows ⊢
    omega
  | step =>
    simp only [Engines.get, Engines.set] at hgrows ⊢
    omega

theorem cancels_interrupts (s : Session σ) (times : Nat) :
    ((List.range times).foldl (fun s _ => s.interrupt) s).link.cancels = s.link.cancels := by
  induction times with
  | zero => rfl
  | succ times ih =>
    rw [List.range_succ, List.foldl_append]
    refine Eq.trans ?_ ih
    change (Session.interrupt _).link.cancels = _
    unfold Session.interrupt
    split <;> rfl

omit [Backend σ] in
theorem stays_finishAll (rs : List ProofResult) {a : Attempt σ} (h : a.isCancelled = true) :
    (a.finishAll rs).isCancelled = true := by
  rw [isCancelled_iff] at h ⊢
  simpa using h

include hl

theorem stays_checks : Stays (checks (σ := σ)) := by
  intro a a' r hI hs _
  rw [outcome_checks] at hs
  obtain ⟨-, rfl⟩ := Prod.mk.inj hs
  rw [isCancelled_iff] at hI ⊢
  refine hI.imp_right fun hasked => ?_
  have hbase : a.engines.base.session.link.cancels ≤
      (outcome (BaseCase.checkAll a.pending) a.engines.base).2.session.link.cancels :=
    keeps_queryAll (fun name => asks_base hl name) a.pending (Nat.le_refl _) rfl trivial
  have hstep : a.engines.step.session.link.cancels ≤
      (outcome (InductionStep.checkAll a.lemmas a.pending) a.engines.step).2.session.link.cancels :=
    keeps_queryAll (fun name => asks_step hl a.lemmas name) a.pending (Nat.le_refl _) rfl trivial
  simp only [deliver, Engines.get, cancels_interrupts]
  omega

theorem stays_round : Stays (round (σ := σ)) := by
  have hstop : Stays (stop (σ := σ)) := .modify fun _ h => stays_finishAll _ h
  rw [round_eq]
  refine .bind .get fun a => ?_
  split
  · exact .bind hstop fun _ => .pure _
  refine .bind (stays_checks hl) fun outcomes => .bind .get fun a' => ?_
  split
  · exact .bind hstop fun _ => .pure _
  refine .bind (.modify fun _ h => stays_finishAll _ h) fun _ => .bind .get fun a' => ?_
  split
  · exact .pure _
  split
  · exact .bind (.modify fun _ h => stays_finishAll _ h) fun _ => .pure _
  · exact .bind (stays_onEngine .base fun _ => asks_advance hl) fun _ =>
      .bind (stays_onEngine .step fun _ => asks_advance hl) fun _ => .pure _

theorem stays_rounds (fuel : Nat) : Stays (rounds (σ := σ) fuel) := by
  induction fuel with
  | zero => exact .pure _
  | succ fuel ih =>
    refine .bind (stays_round hl) fun finished => ?_
    split
    · exact .pure _
    · exact ih

theorem stays_closeSession (task : Task) : Stays (closeSession (σ := σ) task) :=
  stays_onEngine task fun k => asks_of fun _ => on_talk (keeps_op (hl k) .close rfl)

end Attempt

end InvariantProver
