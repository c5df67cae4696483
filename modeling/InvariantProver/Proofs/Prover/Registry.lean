import InvariantProver.Proofs.Prover.Lasting
import InvariantProver.Proofs.Prover.Soundness
import InvariantProver.Proofs.Session.Refusals
import Mathlib.Logic.Relation

/-!
Sessions between the one who opens them and those who cancel. A cancellation sets a flag, looks at the
registered sessions and interrupts them one by one, while attempts open sessions, use them, close them and
forget them again. Because a session is registered before the flag is read, and the flag is set before the
register is read, no session escapes (`ended_of_cancelled`).
-/

namespace InvariantProver

namespace Session

variable {σ : Type}

def Ended (s : Session σ) : Prop := s.interrupted = true ∨ s.closed = true

variable [Backend σ]

theorem ended_interrupt (s : Session σ) : s.interrupt.Ended := by
  left
  unfold interrupt interrupted
  split <;> rfl

theorem ended_close (s : Session σ) : (outcome close s).2.Ended := by
  have hclosed := closed_close s
  rw [perform, outcome_map] at hclosed
  exact .inr hclosed

theorem Ended.perform (hfirm : Backend.Firm σ)
    {s : Session σ} (h : s.Ended) (act : Act) : (outcome (Session.perform act) s).2.Ended := by
  rcases h with hinterrupted | hclosed
  · exact .inl (keeps_perform hfirm act hinterrupted rfl trivial)
  · right
    by_cases hact : act = .close
    · rw [hact, closed_close]
    · rw [closed_perform hact, hclosed]

end Session

namespace Registry

inductive Stage
  | created
  | registered
  | struck
  deriving DecidableEq

/-- Where the attempts are, with the sessions that are open, the last of them first. -/
inductive Phase
  | idle
  | opening (held : List Nat)
  | entering (stage : Stage) (held : List Nat) (i : Nat)
  | working (held : List Nat)
  | closing (held : List Nat)

def Phase.held : Phase → List Nat
  | idle => []
  | opening held | entering _ held _ | working held | closing held => held

inductive Cancellation
  | called
  | flagged
  | striking (rest : List Nat)

end Registry

open Registry in
structure Registry (σ : Type) where
  flag : Bool := false
  sessions : List (Session σ) := []
  registered : List Nat := []
  phase : Phase := .idle
  calls : List Cancellation := []
  opened : List Nat := []

namespace Registry

variable {σ : Type}

def onSession (f : Session σ → Session σ) (i : Nat) (r : Registry σ) : Registry σ :=
  { r with sessions := r.sessions.modify i f }

def opens (held : List Nat) (i : Nat) (r : Registry σ) : Registry σ :=
  { r with
    opened := r.opened ++ [i]
    phase := if held = [] then .opening [i] else .working (i :: held) }

inductive Step [Backend σ] : Registry σ → Registry σ → Prop
  | attempt {r : Registry σ} : r.phase = .idle → Step r { r with phase := .opening [] }
  | create {r : Registry σ} {held : List Nat} (s : Session σ) : r.phase = .opening held →
    Step r { r with
      sessions := r.sessions ++ [s]
      phase := .entering .created held r.sessions.length }
  | refuseFirst {r : Registry σ} : r.phase = .opening [] → Step r { r with phase := .idle }
  | refuseSecond {r : Registry σ} {i : Nat} : r.phase = .opening [i] →
    Step r { r with phase := .closing [i] }
  | register {r : Registry σ} {held : List Nat} {i : Nat} : r.phase = .entering .created held i →
    Step r { r with
      registered := r.registered ++ [i]
      phase := .entering .registered held i }
  | readUnset {r : Registry σ} {held : List Nat} {i : Nat} : r.phase = .entering .registered held i →
    r.flag = false → Step r (r.opens held i)
  | readSet {r : Registry σ} {held : List Nat} {i : Nat} : r.phase = .entering .registered held i →
    r.flag = true → Step r { r with phase := .entering .struck held i }
  | strike {r : Registry σ} {held : List Nat} {i : Nat} : r.phase = .entering .struck held i →
    Step r ((r.onSession Session.interrupt i).opens held i)
  /-- Engines use sessions, and others may do so too, at any time. -/
  | use {r : Registry σ} (i : Nat) (act : Act) :
    Step r (r.onSession (fun s => (outcome (Session.perform act) s).2) i)
  | leave {r : Registry σ} {held : List Nat} : r.phase = .working held →
    Step r { r with phase := .closing held }
  | close {r : Registry σ} {held : List Nat} {i : Nat} : r.phase = .closing (i :: held) →
    Step r { r.onSession (fun s => (outcome Session.close s).2) i with phase := .closing held }
  | clear {r : Registry σ} : r.phase = .closing [] →
    Step r { r with registered := [], phase := .idle }
  /-- Closing the first session has failed, and the register is left as it is. -/
  | abandon {r : Registry σ} : r.phase = .closing [] → Step r { r with phase := .idle }
  | call {r : Registry σ} : Step r { r with calls := r.calls ++ [.called] }
  | set {r : Registry σ} {k : Nat} : r.calls[k]? = some .called →
    Step r { r with flag := true, calls := r.calls.set k .flagged }
  | snapshot {r : Registry σ} {k : Nat} : r.calls[k]? = some .flagged →
    Step r { r with calls := r.calls.set k (.striking r.registered) }
  | interrupt {r : Registry σ} {k i : Nat} {rest : List Nat} :
    r.calls[k]? = some (.striking (i :: rest)) →
    Step r { r.onSession Session.interrupt i with calls := r.calls.set k (.striking rest) }

def Reachable [Backend σ] (r : Registry σ) : Prop := Relation.ReflTransGen Step {} r

def Ended (r : Registry σ) (i : Nat) : Prop := ∃ s, r.sessions[i]? = some s ∧ s.Ended

/-- A session is open and known, and every cancellation that has looked at the register is still to
interrupt it. -/
structure Covered (r : Registry σ) (i : Nat) : Prop where
  held : i ∈ r.phase.held
  registered : i ∈ r.registered
  awaited : ∀ rest, .striking rest ∈ r.calls → i ∈ rest

structure Inv (r : Registry σ) : Prop where
  unset : r.flag = false → ∀ c ∈ r.calls, c = .called
  exist : ∀ i ∈ r.opened, i < r.sessions.length
  entering : ∀ stage held i, r.phase = .entering stage held i →
    i < r.sessions.length ∧ (stage ≠ .created → i ∈ r.registered)
  covered : ∀ i ∈ r.opened, r.Ended i ∨ r.Covered i

theorem inv_new : Inv ({} : Registry σ) where
  unset _ c hc := by cases hc
  exist i hi := by cases hi
  entering stage held i h := by cases h
  covered i hi := by cases hi

section

variable {r : Registry σ} {i : Nat} {f : Session σ → Session σ}

theorem ended_onSession (hf : ∀ s, s.Ended → (f s).Ended) (h : r.Ended i) (j : Nat) :
    (r.onSession f j).Ended i := by
  obtain ⟨s, hs, hended⟩ := h
  refine ⟨if j = i then f s else s, ?_, ?_⟩
  · rw [onSession, List.getElem?_modify, hs]
    rfl
  · split
    · exact hf s hended
    · exact hended

theorem ended_onSession_self (hf : ∀ s, (f s).Ended) (hi : i < r.sessions.length) :
    (r.onSession f i).Ended i := by
  refine ⟨f r.sessions[i], ?_, hf _⟩
  rw [onSession, List.getElem?_modify_eq, List.getElem?_eq_getElem hi]
  rfl

theorem Inv.onSession (h : r.Inv) (hf : ∀ s, s.Ended → (f s).Ended) (j : Nat) : (r.onSession f j).Inv where
  unset := h.unset
  exist i hi := by
    rw [Registry.onSession, List.length_modify]
    exact h.exist i hi
  entering stage held i hphase := by
    rw [Registry.onSession, List.length_modify]
    exact h.entering stage held i hphase
  covered i hi := by
    rcases h.covered i hi with hended | hcovered
    · exact .inl (ended_onSession hf hended j)
    · exact .inr ⟨hcovered.held, hcovered.registered, hcovered.awaited⟩

theorem Inv.create (h : r.Inv) (s : Session σ) : Inv { r with sessions := r.sessions ++ [s] } where
  unset := h.unset
  exist i hi := by
    rw [List.length_append]
    exact Nat.lt_add_right _ (h.exist i hi)
  entering stage held i hphase := by
    obtain ⟨hi, hmem⟩ := h.entering stage held i hphase
    rw [List.length_append]
    exact ⟨Nat.lt_add_right _ hi, hmem⟩
  covered i hi := by
    rcases h.covered i hi with ⟨t, ht, hended⟩ | hcovered
    · refine .inl ⟨t, ?_, hended⟩
      rw [List.getElem?_append_left (h.exist i hi), ht]
    · exact .inr ⟨hcovered.held, hcovered.registered, hcovered.awaited⟩

theorem Inv.register (h : r.Inv) (j : Nat) : Inv { r with registered := r.registered ++ [j] } where
  unset := h.unset
  exist := h.exist
  entering stage held i hphase := by
    obtain ⟨hi, hmem⟩ := h.entering stage held i hphase
    exact ⟨hi, fun hstage => List.mem_append_left _ (hmem hstage)⟩
  covered i hi := by
    rcases h.covered i hi with hended | hcovered
    · exact .inl hended
    · exact .inr ⟨hcovered.held, List.mem_append_left _ hcovered.registered, hcovered.awaited⟩

theorem Inv.phase (h : r.Inv) {phase : Phase}
    (hheld : ∀ i ∈ r.opened, i ∈ r.phase.held → i ∈ phase.held ∨ r.Ended i)
    (hentering : ∀ stage held i, phase = .entering stage held i →
      i < r.sessions.length ∧ (stage ≠ .created → i ∈ r.registered)) :
    Inv { r with phase := phase } where
  unset := h.unset
  exist := h.exist
  entering := hentering
  covered i hi := by
    rcases h.covered i hi with hended | hcovered
    · exact .inl hended
    · rcases hheld i hi hcovered.held with hheld | hended
      · exact .inr ⟨hheld, hcovered.registered, hcovered.awaited⟩
      · exact .inl hended

theorem Inv.phase_of_held (h : r.Inv) {phase : Phase} (hheld : r.phase.held = phase.held)
    (hentering : ∀ stage held i, phase = .entering stage held i →
      i < r.sessions.length ∧ (stage ≠ .created → i ∈ r.registered)) :
    Inv { r with phase := phase } :=
  h.phase (fun _ _ hi => .inl (hheld ▸ hi)) hentering

theorem Inv.enter (h : r.Inv) {stage : Stage} {held : List Nat} (hheld : r.phase.held = held)
    (hi : i < r.sessions.length) (hregistered : stage ≠ .created → i ∈ r.registered) :
    Inv { r with phase := .entering stage held i } := by
  refine h.phase_of_held hheld fun stage' held' j hentering => ?_
  obtain ⟨rfl, rfl, rfl⟩ := Phase.entering.inj hentering
  exact ⟨hi, hregistered⟩

theorem Inv.calls (h : r.Inv) {calls : List Cancellation} {flag : Bool}
    (hunset : flag = false → ∀ c ∈ calls, c = .called)
    (hawaited : ∀ i ∈ r.opened, r.Covered i → ∀ rest, .striking rest ∈ calls → i ∈ rest ∨ r.Ended i) :
    Inv { r with flag := flag, calls := calls } where
  unset := hunset
  exist := h.exist
  entering := h.entering
  covered i hi := by
    rcases h.covered i hi with hended | hcovered
    · exact .inl hended
    by_cases hended : r.Ended i
    · exact .inl hended
    · refine .inr ⟨hcovered.held, hcovered.registered, fun rest hrest => ?_⟩
      exact (hawaited i hi hcovered rest hrest).resolve_right hended

theorem Inv.advance (h : r.Inv) {k : Nat} {c : Cancellation} {flag : Bool}
    (hunset : flag = false → ∀ c' ∈ r.calls.set k c, c' = .called)
    (hawaited : ∀ i ∈ r.opened, r.Covered i → ∀ rest, c = .striking rest → i ∈ rest ∨ r.Ended i) :
    Inv { r with flag := flag, calls := r.calls.set k c } := by
  refine h.calls hunset fun i hi hcovered rest hrest => ?_
  rcases List.mem_or_eq_of_mem_set hrest with hrest | hrest
  · exact .inl (hcovered.awaited rest hrest)
  · exact hawaited i hi hcovered rest hrest.symm

theorem Inv.opens (h : r.Inv) {stage : Stage} {held : List Nat} (hphase : r.phase = .entering stage held i)
    (hnew : r.Ended i ∨ i ∈ r.registered ∧ ∀ rest, .striking rest ∉ r.calls) : (r.opens held i).Inv := by
  obtain ⟨hi, -⟩ := h.entering stage held i hphase
  have hheld : (r.opens held i).phase.held = i :: held := by
    unfold Registry.opens
    by_cases hempty : held = [] <;> simp [hempty, Phase.held]
  refine ⟨h.unset, ?_, ?_, ?_⟩
  · intro j hj
    rcases List.mem_append.mp hj with hj | hj
    · exact h.exist j hj
    · exact List.mem_singleton.mp hj ▸ hi
  · intro stage' held' j hentering
    unfold Registry.opens at hentering
    split at hentering <;> cases hentering
  · intro j hj
    rcases List.mem_append.mp hj with hj | hj
    · rcases h.covered j hj with hended | hcovered
      · exact .inl hended
      · refine .inr ⟨?_, hcovered.registered, hcovered.awaited⟩
        have hbefore := hcovered.held
        rw [hphase] at hbefore
        rw [hheld]
        exact List.mem_cons_of_mem i hbefore
    · obtain rfl := List.mem_singleton.mp hj
      rcases hnew with hended | ⟨hregistered, hnone⟩
      · exact .inl hended
      · exact .inr ⟨by rw [hheld]; exact List.mem_cons_self, hregistered,
          fun rest hrest => absurd hrest (hnone rest)⟩

end

section

variable [Backend σ] {r r' : Registry σ}
  (hfirm : Backend.Firm σ)
include hfirm

theorem Inv.step (h : r.Inv) (hs : Step r r') : r'.Inv := by
  cases hs with
  | attempt hphase => exact h.phase_of_held (by rw [hphase]; rfl) (by simp)
  | @create held s hphase =>
    refine (h.create s).enter ?_ (by simp) (by simp)
    rw [hphase]
    rfl
  | refuseFirst hphase => exact h.phase_of_held (by rw [hphase]; rfl) (by simp)
  | refuseSecond hphase => exact h.phase_of_held (by rw [hphase]; rfl) (by simp)
  | @register held i hphase =>
    refine (h.register i).enter ?_ (h.entering _ _ _ hphase).1 fun _ => by simp
    rw [hphase]
    rfl
  | readUnset hphase hflag =>
    refine h.opens hphase (.inr ⟨(h.entering _ _ _ hphase).2 (by decide), fun rest hrest => ?_⟩)
    cases h.unset hflag _ hrest
  | readSet hphase hflag =>
    obtain ⟨hi, hmem⟩ := h.entering _ _ _ hphase
    refine h.enter ?_ hi fun _ => hmem (by decide)
    rw [hphase]
    rfl
  | @strike held i hphase =>
    have hstruck := h.onSession (fun s _ => Session.ended_interrupt s) i
    refine hstruck.opens hphase (.inl (ended_onSession_self Session.ended_interrupt ?_))
    exact (h.entering _ _ _ hphase).1
  | use i act => exact h.onSession (fun s hended => hended.perform hfirm act) i
  | leave hphase => exact h.phase_of_held (by rw [hphase]; rfl) (by simp)
  | @close held i hphase =>
    have hclosed := h.onSession (fun s _ => Session.ended_close s) i
    refine hclosed.phase (fun j hj hheld => ?_) (by simp)
    have hmem : j ∈ r.phase.held := hheld
    rw [hphase] at hmem
    rcases List.mem_cons.mp hmem with rfl | hmem
    · exact .inr (ended_onSession_self Session.ended_close (h.exist j hj))
    · exact .inl hmem
  | clear hphase =>
    refine ⟨h.unset, h.exist, by simp, fun i hi => ?_⟩
    rcases h.covered i hi with hended | hcovered
    · exact .inl hended
    · -- whatever was open has been closed before the register is cleared
      have hheld := hcovered.held
      rw [hphase] at hheld
      cases hheld
  | abandon hphase => exact h.phase_of_held (by rw [hphase]; rfl) (by simp)
  | call =>
    refine h.calls (fun hflag c hc => ?_) fun i _ hcovered rest hrest => ?_
    · rcases List.mem_append.mp hc with hc | hc
      · exact h.unset hflag c hc
      · exact List.mem_singleton.mp hc
    · rcases List.mem_append.mp hrest with hrest | hrest
      · exact .inl (hcovered.awaited rest hrest)
      · cases List.mem_singleton.mp hrest
  | set hcall => exact h.advance (by simp) (by simp)
  | snapshot hcall =>
    refine h.advance (fun hflag => ?_) fun i _ hcovered rest hrest => ?_
    · cases h.unset hflag _ (List.mem_of_getElem? hcall)
    · obtain rfl := Cancellation.striking.inj hrest
      exact .inl hcovered.registered
  | @interrupt k j rest hcall =>
    have hstruck := h.onSession (fun s _ => Session.ended_interrupt s) j
    have hmem : .striking (j :: rest) ∈ r.calls := List.mem_of_getElem? hcall
    refine hstruck.advance (fun hflag => ?_) fun i hi hcovered rest' hrest => ?_
    · cases h.unset hflag _ hmem
    · obtain rfl := Cancellation.striking.inj hrest
      rcases List.mem_cons.mp (hcovered.awaited _ hmem) with rfl | hlater
      · exact .inr (ended_onSession_self Session.ended_interrupt (h.exist i hi))
      · exact .inl hlater

theorem Reachable.inv (h : Reachable r) : r.Inv := by
  induction h with
  | refl => exact inv_new
  | tail _ hs ih => exact ih.step hfirm hs

/-- Once a cancellation is complete, no session runs on whose opening is complete, in whatever attempt it has
been opened, and however the steps have come in turn. -/
theorem ended_of_cancelled (h : Reachable r) (hdone : .striking [] ∈ r.calls) :
    ∀ i ∈ r.opened, ∃ s, r.sessions[i]? = some s ∧ (s.interrupted = true ∨ s.closed = true) := by
  intro i hi
  rcases (h.inv hfirm).covered i hi with hended | hcovered
  · exact hended
  · cases hcovered.awaited [] hdone

end

theorem isCancelled_enter_interrupt [Backend σ] (a : Attempt σ) (task : Task) (t : Session σ) :
    (a.enter task t.interrupt).isCancelled = (a.enter task t).isCancelled := by
  have hcancels (s : Session σ) : s.interrupt.link.cancels = s.link.cancels :=
    Attempt.cancels_interrupts s 1
  rw [Bool.eq_iff_iff, Attempt.isCancelled_iff, Attempt.isCancelled_iff]
  cases task with
  | base => simp only [Attempt.enter, Engines.get, Engines.set, hcancels]
  | step => simp only [Attempt.enter, Engines.get, Engines.set, hcancels]

theorem steps_of_openSession [Backend σ] {a a' : Attempt σ} {task : Task} {t : Session σ}
    {x : Except ProofError Unit}
    (hstart : outcome Session.start (a.engines.get task).session = (.ok (), t))
    (hopen : outcome (Attempt.openSession task) a = (x, a')) {r : Registry σ} {held : List Nat}
    (hphase : r.phase = .opening held) (hflag : r.flag = a'.isCancelled) :
    Relation.ReflTransGen Step r (opens held r.sessions.length { r with
      sessions := r.sessions ++ [(a'.engines.get task).session]
      registered := r.registered ++ [r.sessions.length] }) := by
  have hregistered := (Relation.ReflTransGen.single (Step.create t hphase)).tail (.register rfl)
  rw [Attempt.outcome_openSession_ok hstart] at hopen
  obtain rfl := (Prod.mk.inj hopen).2
  by_cases hcancelled : (a.enter task t).isCancelled = true
  · rw [if_pos hcancelled] at hflag ⊢
    have hset : r.flag = true := hflag.trans ((isCancelled_enter_interrupt a task t).trans hcancelled)
    have hlast : (r.sessions ++ [t]).modify r.sessions.length Session.interrupt =
        r.sessions ++ [t.interrupt] := by
      rw [List.modify_eq_take_cons_drop (by simp)]
      simp
    have hstruck := (hregistered.tail (.readSet rfl hset)).tail (.strike rfl)
    rw [onSession, hlast] at hstruck
    rw [Attempt.enter, Attempt.get_set]
    exact hstruck
  · rw [if_neg hcancelled] at hflag ⊢
    have hunset : r.flag = false := by
      rw [hflag]
      simpa using hcancelled
    rw [Attempt.enter, Attempt.get_set]
    exact hregistered.tail (.readUnset rfl hunset)

theorem step_of_closeSession [Backend σ] {a a' : Attempt σ} {task : Task} {x : Except ProofError Unit}
    (hclose : outcome (Attempt.closeSession task) a = (x, a')) {r : Registry σ} {held : List Nat} {i : Nat}
    (hphase : r.phase = .closing (i :: held)) (hi : r.sessions[i]? = some (a.engines.get task).session) :
    Step r { r with
      sessions := r.sessions.set i (a'.engines.get task).session
      phase := .closing held } := by
  have hlast : (a'.engines.get task).session = (outcome Session.close (a.engines.get task).session).2 := by
    rw [Attempt.closeSession, Attempt.outcome_onEngine, Engine.outcome_talk] at hclose
    rw [← (Prod.mk.inj hclose).2, Attempt.get_set]
  have hclosed : r.sessions.modify i (fun s => (outcome Session.close s).2) =
      r.sessions.set i (a'.engines.get task).session := by
    rw [hlast]
    apply List.ext_getElem?
    intro j
    rw [List.getElem?_modify, List.getElem?_set]
    split
    · next hij =>
      obtain ⟨hlt, hs⟩ := List.getElem?_eq_some_iff.mp hi
      subst hij
      simp [hlt, hs]
    · simp
  rw [← hclosed]
  exact .close hphase

/-- At its end an attempt closes its sessions by these steps, the last one first, and forgets them unless the
first one fails to close. -/
theorem steps_of_closing [Backend σ] {a a' a'' : Attempt σ} {x y : Except ProofError Unit}
    (hstep : outcome (Attempt.closeSession .step) a = (x, a'))
    (hbase : outcome (Attempt.closeSession .base) a' = (y, a'')) {r : Registry σ} {i j : Nat} (hij : i ≠ j)
    (hphase : r.phase = .working [j, i]) (hi : r.sessions[i]? = some a.engines.base.session)
    (hj : r.sessions[j]? = some a.engines.step.session) :
    Relation.ReflTransGen Step r { r with
      sessions := (r.sessions.set j a''.engines.step.session).set i a''.engines.base.session
      registered := if y.isOk then [] else r.registered
      phase := .idle } := by
  have hunchanged : a'.engines.base = a.engines.base := by
    rw [← (Prod.mk.inj hstep).2]
    rfl
  have hfinal : a''.engines.step = a'.engines.step := by
    rw [← (Prod.mk.inj hbase).2]
    rfl
  have hleft := (Relation.ReflTransGen.single (Step.leave hphase)).tail (step_of_closeSession hstep rfl hj)
  have hsecond : (r.sessions.set j a'.engines.step.session)[i]? = some a'.engines.base.session := by
    rw [List.getElem?_set_ne hij.symm, hunchanged]
    exact hi
  have hclosed := hleft.tail (step_of_closeSession hbase rfl hsecond)
  rw [hfinal]
  cases y with
  | ok _ => exact hclosed.tail (.clear rfl)
  | error _ => exact hclosed.tail (.abandon rfl)

theorem firm_memory : Backend.Firm Memory where
  start := .pure _
  declare _ := .pure _
  assert _ := .modify fun _ h => h
  push := .modify fun _ h => h
  pop := .modify fun _ h => h
  check := .bind (.bind .get fun _ => .pure _) fun _ => .pure _
  values _ := .bind (.bind .get fun _ => .pure _) fun _ => .pure _
  close := .modify fun _ h => h
  interrupted _ _ := rfl
  interrupt _ h := h

/-- A cancellation between the readings of the flag misses the second session, which interrupts itself, and
so does the session of the next attempt. -/
theorem ended_of_late_snapshot :
    ∃ r : Registry Memory, Reachable r ∧ .striking [] ∈ r.calls ∧ r.opened = [0, 1, 2] ∧
      ∀ i ∈ [0, 1, 2], ∃ s, r.sessions[i]? = some s ∧ (s.interrupted = true ∨ s.closed = true) := by
  let s := Memory.session "memory" Oracle.silent
  have hfirst : Reachable (σ := Memory) _ :=
    ((((Relation.ReflTransGen.refl.tail (.attempt rfl)).tail (.create s rfl)).tail (.register rfl)).tail
      .call).tail (.readUnset rfl rfl)
  have hsecond : Reachable (σ := Memory) _ :=
    ((((((hfirst.tail (.create s rfl)).tail (.set (k := 0) rfl)).tail (.snapshot (k := 0) rfl)).tail
      (.register rfl)).tail (.interrupt (k := 0) rfl)).tail (.readSet rfl rfl)).tail (.strike rfl)
  have hnext : Reachable (σ := Memory) _ :=
    ((((((hsecond.tail (.leave rfl)).tail (.close rfl)).tail (.close rfl)).tail (.clear rfl)).tail
      (.attempt rfl)).tail (.create s rfl)).tail (.register rfl)
  have hlast : Reachable (σ := Memory) _ := (hnext.tail (.readSet rfl rfl)).tail (.strike rfl)
  have hdone : .striking [] ∈ [Cancellation.striking []] := by simp
  exact ⟨_, hlast, hdone, rfl, ended_of_cancelled firm_memory hlast hdone⟩

end Registry

end InvariantProver
