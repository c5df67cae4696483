import InvariantProver.Proofs.Session.Refusals

namespace InvariantProver

def Link.map {σ τ : Type} (f : σ → τ) (link : Link σ) : Link τ where
  backend := f link.backend
  interrupted := link.interrupted
  cancels := link.cancels
  waited := link.waited

@[simp] theorem Link.interrupted_map {σ τ : Type} (f : σ → τ) (link : Link σ) :
    (link.map f).interrupted = link.interrupted := rfl

structure Recorded (σ : Type) where
  inner : σ
  calls : List Act

namespace Recorded

variable {σ α : Type}

def relay (act : Act) (h : Hook σ α) : Hook (Recorded σ) α := fun link =>
  let (result, inner) := h.run (link.map inner)
  (result, inner.map fun b => ⟨b, link.backend.calls ++ [act]⟩)

variable [Backend σ]

instance : Backend (Recorded σ) where
  start := fun link =>
    let (result, inner) := (Backend.start : Hook σ Unit).run (link.map inner)
    (result, inner.map fun b => ⟨b, link.backend.calls⟩)
  declare r := relay (.declare r.var r.step) (Backend.declare r)
  assert t := relay (.assert t) (Backend.assert t)
  push := relay .push Backend.push
  pop := relay .pop Backend.pop
  check := relay .check Backend.check
  values refs := relay (.values refs) (Backend.values refs)
  interrupt b := ⟨Backend.interrupt b.inner, b.calls ++ [.interrupt]⟩
  close := relay .close Backend.close

omit [Backend σ] in
theorem outcome_relay (act : Act) (h : Hook σ α) (link : Link (Recorded σ)) :
    outcome (relay act h) link = ((outcome h (link.map inner)).1,
      (outcome h (link.map inner)).2.map fun b => ⟨b, link.backend.calls ++ [act]⟩) := rfl

theorem hook_eq {act : Act} (hentry : act.isEntry = true) :
    (act.hook : Hook (Recorded σ) Unit) = relay act act.hook := by
  cases act with
  | declare | assert | push | pop => rfl
  | _ => cases hentry

theorem calls_effect (act : Act) (link : Link (Recorded σ)) :
    (act.effect link).backend.calls = link.backend.calls ++ [act] := by
  cases act <;> rfl

end Recorded

namespace Session

open Recorded

variable {σ : Type}

def recorded (s : Session σ) : Session (Recorded σ) where
  name := s.name
  scopes := s.scopes
  hasModel := s.hasModel
  closed := s.closed
  checks := s.checks
  reason := s.reason
  link := s.link.map fun b => ⟨b, []⟩

def erase (s : Session (Recorded σ)) : Session σ where
  name := s.name
  scopes := s.scopes
  hasModel := s.hasModel
  closed := s.closed
  checks := s.checks
  reason := s.reason
  link := s.link.map inner

def calls (s : Session (Recorded σ)) : List Act := s.link.backend.calls

@[simp] theorem erase_recorded (s : Session σ) : s.recorded.erase = s := rfl

@[simp] theorem calls_recorded (s : Session σ) : s.recorded.calls = [] := rfl

theorem accepts_erase {s : Session (Recorded σ)} {act : Act} : s.erase.Accepts act ↔ s.Accepts act := by
  cases act <;> rfl

theorem refusal?_erase (s : Session (Recorded σ)) (act : Act) : s.erase.refusal? act = s.refusal? act := by
  cases act <;> rfl

variable [Backend σ]

theorem erase_check (s : Session (Recorded σ)) :
    outcome check s.erase = ((outcome check s).1, (outcome check s).2.erase) := by
  have hclosed : s.erase.closed = s.closed := rfl
  have hinterrupted : s.erase.interrupted = s.interrupted := rfl
  have hhook : outcome (Backend.check : Hook (Recorded σ) Answer) s.link =
      ((outcome Backend.check s.erase.link).1, (outcome Backend.check s.erase.link).2.map fun b =>
        ⟨b, s.link.backend.calls ++ [.check]⟩) := rfl
  rw [outcome_check, outcome_check, hclosed, hinterrupted, hhook]
  split
  · rfl
  split
  · rfl
  rcases outcome Backend.check s.erase.link with ⟨e | a, link⟩
  · rfl
  · cases hlater : link.interrupted <;>
      simp only [Link.interrupted_map, hlater] <;> rfl

theorem erase_perform (s : Session (Recorded σ)) (act : Act) :
    outcome (perform act) s.erase =
      ((outcome (perform act) s).1, (outcome (perform act) s).2.erase) := by
  cases hrefusal : s.refusal? act with
  | some m => rw [outcome_refused hrefusal, outcome_refused ((refusal?_erase s act).trans hrefusal)]
  | none =>
    have haccepts : s.Accepts act := refusal?_eq_none.mp hrefusal
    have haccepts' : s.erase.Accepts act := accepts_erase.mpr haccepts
    cases act with
    | declare | assert | push | pop =>
      rw [outcome_entry rfl haccepts, outcome_entry rfl haccepts', hook_eq rfl, outcome_relay]
      rfl
    | check =>
      simp only [perform, outcome_map, erase_check]
    | values refs =>
      rw [outcome_question haccepts, outcome_question haccepts']
      rfl
    | interrupt =>
      change (_, interrupt s.erase) = (_, (interrupt s).erase)
      have hclosed : s.erase.closed = s.closed := rfl
      unfold interrupt
      rw [hclosed]
      split <;> rfl
    | close =>
      have hclosed : s.erase.closed = s.closed := rfl
      simp only [perform, outcome_map, outcome_close, hclosed]
      split <;> rfl

theorem erase_converse (s : Session (Recorded σ)) (acts : List Act) :
    (s.converse acts).erase = s.erase.converse acts := by
  induction acts generalizing s with
  | nil => rfl
  | cons act acts ih =>
    have hfirst : (outcome (perform act) s.erase).2 = (outcome (perform act) s).2.erase := by
      rw [erase_perform]
    change (converse (outcome (perform act) s).2 acts).erase = converse (outcome (perform act) s.erase).2 acts
    rw [ih, hfirst]

theorem calls_perform (s : Session (Recorded σ)) (act : Act) :
    (outcome (perform act) s).2.calls = s.calls ++ if s.Reaches act then [act] else [] := by
  unfold calls
  split
  · next h => rw [link_of_reaches h, calls_effect]
  · next h => rw [backend_of_not_reaches h, List.append_nil]

end Session

end InvariantProver
