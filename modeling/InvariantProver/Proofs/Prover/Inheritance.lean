import InvariantProver.Proofs.Prover.Checks
import InvariantProver.Proofs.Session.Obliging

namespace InvariantProver

def Session.Preserves {σ : Type} [Backend σ] (vs : List Variable) (P : Session σ → Prop) : Prop :=
  ∀ act : Act, act.Concerns vs → act ≠ .close → Keeps .any P (perform act)

structure Engine.On {σ : Type} (s : TransitionSystem) (P : Session σ → Prop) (e : Engine σ) : Prop where
  system : e.system = s
  session : P e.session

namespace Engine

open Session

variable {σ α : Type} {s : TransitionSystem} {P : Session σ → Prop}

theorem on_talk {m : SessionM σ α} (h : Keeps .any P m) : Keeps .any (On s P) (talk m) := by
  rintro e e' r ⟨hsystem, hsession⟩ hs -
  obtain ⟨q, t, hm, -, rfl⟩ := talk_eq hs
  exact ⟨hsystem, h hsession hm trivial⟩

theorem keeps_of_on {m : EngineM σ α} (h : ∀ s, Keeps .any (On s P) m) :
    Keeps .any (fun e => P e.session) m :=
  fun e _ _ hP hs _ => (h e.system ⟨rfl, hP⟩ hs trivial).session

variable [Backend σ] (hP : Session.Preserves s.variables P)
include hP

theorem on_act {m : SessionM σ α} {reply : α → Reply} (act : Act) (hconcerns : act.Concerns s.variables)
    (hclose : act ≠ .close) (hact : perform act = reply <$> m) : Keeps .any (On s P) (talk m) := by
  refine on_talk fun t t' r ht hs _ => ?_
  have hperform : outcome (perform act) t = (r.map reply, t') := by
    rw [hact, outcome_map, hs]
  exact hP act hconcerns hclose ht hperform trivial

theorem on_advance : Keeps .any (On s P) advance := by
  rintro e e' r h hs -
  have hdeclares : Keeps .any (On s P)
      (e.system.variables.forM fun v => talk (Session.declare v e.placed)) :=
    .forM _ fun v hv => on_act hP (.declare v e.placed) (h.system ▸ hv) (by simp) rfl
  refine Keeps.bind hdeclares (fun _ => .bind (.forM _ fun t _ => ?_) fun _ => ?_) h hs trivial
  · exact on_act hP (.assert t) trivial (by simp) rfl
  · exact .modify fun _ h => ⟨h.system, h.session⟩

theorem on_query {read : EngineM σ α} (hread : Keeps .any (On s P) read)
    (terms : List (Except TypeError Term)) : Keeps .any (On s P) (query terms read) := by
  refine .bind .get fun e => .bind (on_act hP .push trivial (by simp) rfl) fun _ =>
    .ensuring (.bind (.forM _ fun t _ => .bind ?_ fun t => ?_) fun _ =>
      .bind (on_act hP .check trivial (by simp) rfl) fun a => ?_) (on_act hP .pop trivial (by simp) rfl)
  · cases t with
    | ok t => exact .pure t
    | error error => exact .throw _
  · exact on_act hP (.assert t) trivial (by simp) rfl
  · cases a with
    | sat => exact .bind hread fun _ => .pure _
    | unsat => exact .pure _
    | unknown reason => exact .bind .get fun _ => .pure _

theorem on_base (name : String) : Keeps .any (On s P) (BaseCase.check name) := by
  refine .bind (keeps_property name) fun p => .bind .get fun e => on_query hP ?_ _
  exact .bind .get fun e => .bind (on_act hP (.values _) trivial (by simp) rfl) fun _ =>
    .bind (.liftM _) fun _ => .pure _

theorem on_step (hypotheses : List Term) (name : String) :
    Keeps .any (On s P) (InductionStep.check hypotheses name) :=
  .bind (keeps_property name) fun _ => .bind .get fun _ => on_query hP (.pure ()) _

end Engine

end InvariantProver
