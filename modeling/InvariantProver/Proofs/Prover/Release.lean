import InvariantProver.Proofs.Prover.Calls
import InvariantProver.Proofs.Prover.Inheritance
import InvariantProver.Proofs.Prover.Saying
import InvariantProver.Proofs.Prover.Soundness
import InvariantProver.Proofs.Prover.Supervision

namespace InvariantProver

namespace Session

variable {σ : Type} [Backend σ] {s₀ t : Session σ}

def started (s₀ : Session σ) : Session σ := (outcome start s₀).2

def Used (s₀ t : Session σ) : Prop := ∃ acts, .close ∉ acts ∧ t = s₀.started.converse acts

def Released (s₀ t : Session σ) : Prop := ∃ acts, .close ∉ acts ∧ t = s₀.started.converse (acts ++ [.close])

def Closes (s₀ : Session σ) : Prop := ∀ t, Used s₀ t → (outcome close t).1 = .ok ()

theorem used_started (s₀ : Session σ) : Used s₀ s₀.started := ⟨[], by simp, rfl⟩

theorem Used.converse (h : Used s₀ t) {acts : List Act} (hacts : .close ∉ acts) : Used s₀ (t.converse acts) := by
  obtain ⟨before, hbefore, rfl⟩ := h
  refine ⟨before ++ acts, by simp [hbefore, hacts], ?_⟩
  rw [converse_append]

theorem Used.interrupt (h : Used s₀ t) : Used s₀ t.interrupt := by
  have hinterrupted : t.interrupt = t.converse [.interrupt] := rfl
  rw [hinterrupted]
  exact h.converse (by simp)

theorem Used.close (h : Used s₀ t) : Released s₀ (outcome close t).2 := by
  obtain ⟨acts, hacts, rfl⟩ := h
  refine ⟨acts, hacts, ?_⟩
  rw [converse_append]
  exact (converse_single .close rfl rfl).symm

theorem preserves_used (vs : List Variable) : Session.Preserves vs (Used s₀) := by
  intro act _ hclose t t' r h hs _
  have hsingle : t.converse [act] = t' := congrArg Prod.snd hs
  rw [← hsingle]
  apply h.converse
  simpa using hclose.symm

end Session

namespace Engine

open Session

variable {σ : Type} [Backend σ]

theorem bears_used (s₀ : Session σ) : Bears .any fun e : Engine σ => Used s₀ e.session where
  advance := keeps_of_on fun s => on_advance (preserves_used s.variables)
  base name := keeps_of_on fun s => on_base (preserves_used s.variables) name
  step hypotheses name := keeps_of_on fun s => on_step (preserves_used s.variables) hypotheses name

end Engine

namespace Attempt

open Session Engine

variable {σ : Type} {sessions : Task → Session σ} {a a' : Attempt σ} {task : Task}

def session (a : Attempt σ) (task : Task) : Session σ := (a.engines.get task).session

@[simp] theorem session_set (a : Attempt σ) (e : Engine σ) (task : Task) :
    session { a with engines := a.engines.set e task } task = e.session := by
  cases task <;> rfl

@[simp] theorem session_set_other (a : Attempt σ) (e : Engine σ) {task other : Task} (h : other ≠ task) :
    session { a with engines := a.engines.set e task } other = a.session other := by
  cases task <;> cases other <;> first | rfl | exact absurd rfl h

@[simp] theorem session_enter (a : Attempt σ) (task : Task) (t : Session σ) :
    (a.enter task t).session task = t :=
  session_set a _ task

theorem session_enter_other (a : Attempt σ) (t : Session σ) {task other : Task} (h : other ≠ task) :
    (a.enter task t).session other = a.session other :=
  session_set_other a _ h

structure Unused (sessions : Task → Session σ) (a : Attempt σ) : Prop where
  opened : a.opened = []
  session (task : Task) : a.session task = sessions task

variable [Backend σ]

structure InUse (sessions : Task → Session σ) (a : Attempt σ) : Prop where
  opened : a.opened = [.base, .step]
  used (task : Task) : (sessions task).Used (a.session task)

omit [Backend σ] in
theorem keeps_checkNames (names : List String) : Keeps .any (Unused sessions) (checkNames names) := by
  refine .forM names fun name _ => .bind ?_ fun _ => .pure _
  rintro a a' r h hs -
  have hkeeps : Keeps .any (· = a.engines.get .base) (Engine.property name) := Engine.keeps_property name
  have hsame : (outcome (Engine.property name) (a.engines.get .base)).2 = a.engines.get .base :=
    hkeeps rfl rfl trivial
  rw [outcome_onEngine, hsame] at hs
  obtain ⟨-, rfl⟩ := Prod.mk.inj hs
  exact h

theorem keeps_onEngine {α : Type} {m : EngineM σ α}
    (h : Keeps .any (fun e => (sessions task).Used e.session) m) :
    Keeps .any (InUse sessions) (onEngine task m) := by
  rintro a a' r ⟨hopened, hused⟩ hs -
  rw [outcome_onEngine] at hs
  obtain ⟨-, rfl⟩ := Prod.mk.inj hs
  refine ⟨hopened, fun other => ?_⟩
  by_cases hother : other = task
  · subst hother
    rw [session_set]
    exact h (hused other) rfl trivial
  · rw [session_set_other _ _ hother]
    exact hused other

theorem InUse.finishAll (h : a.InUse sessions) (rs : List ProofResult) : (a.finishAll rs).InUse sessions where
  opened := by rw [opened_finishAll, h.opened]
  used task := by
    rw [session, engines_finishAll]
    exact h.used task

theorem InUse.decideRound (h : a.InUse sessions) (bs : Entries String (Outcome Trace))
    (os : Entries String (Outcome Unit)) : (a.decideRound bs os).InUse sessions := by
  have hwarned : InUse sessions { a with warnings := a.warnings ++ a.replayWarnings bs } := ⟨h.opened, h.used⟩
  exact hwarned.finishAll _

theorem InUse.deliver (h : a.InUse sessions) : a.deliver.InUse sessions where
  opened := h.opened
  used task := by
    have hinterrupts : a.deliver.session task =
        (a.session task).converse (List.replicate (a.engines.interruptions task task.other) .interrupt) := by
      rw [← converse_interrupts]
      cases task <;> rfl
    rw [hinterrupts]
    apply (h.used task).converse
    simp

theorem keeps_build : Keeps .any (InUse sessions) build :=
  .bind (keeps_onEngine (bears_used _).advance) fun _ =>
    keeps_onEngine (.bind (bears_used _).advance fun _ => (bears_used _).advance)

theorem keeps_stop : Keeps .any (InUse sessions) stop := .modify fun _ h => h.finishAll _

theorem keeps_conclude : Keeps .any (InUse sessions) conclude := by
  refine .bind .get fun a => .ite (.pure _) (.ite ?_ ?_)
  · exact .bind (.modify fun _ h => h.finishAll _) fun _ => .pure _
  · refine .bind (keeps_onEngine (bears_used _).advance) fun _ => ?_
    exact .bind (keeps_onEngine (bears_used _).advance) fun _ => .pure _

theorem keeps_settle (bs : BaseReport) (os : StepReport) : Keeps .any (InUse sessions) (settle bs os) := by
  refine .bind ?_ fun reports => .bind .get fun a => .ite ?_ ?_
  · rintro a a' r h hs -
    obtain ⟨-, rfl⟩ := Prod.mk.inj hs
    exact h
  · exact .bind keeps_stop fun _ => .pure _
  · exact .bind (.modify fun _ h => h.decideRound _ _) fun _ => keeps_conclude

def Unopened (s₀ t : Session σ) : Prop := t = s₀ ∨ (outcome start s₀).1 ≠ .ok () ∧ t = s₀.started

theorem openSession_cases {x : Except ProofError Unit} (hsession : a.session task = sessions task)
    (h : outcome (openSession task) a = (x, a')) :
    (∀ other ≠ task, a'.session other = a.session other) ∧
      (x = .ok () ∧ a'.opened = a.opened ++ [task] ∧ (sessions task).Used (a'.session task) ∨
        (∃ e, x = .error e) ∧ a'.opened = a.opened ∧ Unopened (sessions task) (a'.session task)) := by
  rcases hstart : outcome start (a.session task) with ⟨fault | ⟨⟩, t⟩
  · rw [outcome_openSession_error hstart] at h
    obtain ⟨rfl, rfl⟩ := Prod.mk.inj h
    refine ⟨fun other hother => session_set_other _ _ hother, .inr ⟨⟨_, rfl⟩, rfl, .inr ?_⟩⟩
    rw [session_set, started, ← hsession, hstart]
    simp
  · rw [outcome_openSession_ok hstart] at h
    obtain ⟨rfl, rfl⟩ := Prod.mk.inj h
    have hused : (sessions task).Used t := by
      have hstarted := used_started (sessions task)
      rwa [started, ← hsession, hstart, hsession] at hstarted
    refine ⟨fun other hother => session_enter_other _ _ hother, .inl ⟨rfl, rfl, ?_⟩⟩
    rw [session_enter]
    split
    · exact hused.interrupt
    · exact hused

theorem closeSession_cases {x : Except ProofError Unit} (hclose : (sessions task).Closes)
    (hused : (sessions task).Used (a.session task)) (h : outcome (closeSession task) a = (x, a')) :
    x = .ok () ∧ a'.opened = a.opened ∧ (sessions task).Released (a'.session task) ∧
      ∀ other ≠ task, a'.session other = a.session other := by
  rcases hs : outcome Session.close (a.session task) with ⟨y, t⟩
  have hok : y = .ok () := by
    have hcloses := hclose (a.session task) hused
    rw [hs] at hcloses
    exact hcloses
  have hreleased := hused.close
  rw [hs] at hreleased
  have htalk : outcome (talk Session.close) (a.engines.get task) =
      (.ok (), { a.engines.get task with session := t }) := by
    have hbefore : (a.engines.get task).session = a.session task := rfl
    rw [outcome_talk, hbefore, hs, hok]
    rfl
  unfold closeSession at h
  rw [outcome_onEngine_ok htalk] at h
  obtain ⟨rfl, rfl⟩ := Prod.mk.inj h
  refine ⟨rfl, rfl, ?_, fun other hother => session_set_other _ _ hother⟩
  rw [session_set]
  exact hreleased

structure HalfOpen (sessions : Task → Session σ) (a : Attempt σ) : Prop where
  opened : a.opened = [.base]
  base : (sessions .base).Used (a.session .base)
  step : a.session .step = sessions .step

inductive HalfClosed (sessions : Task → Session σ) : List Task → Attempt σ → Prop
  | unopened {a : Attempt σ} : a.opened = [.base] → (sessions .base).Used (a.session .base) →
    Unopened (sessions .step) (a.session .step) → HalfClosed sessions [] a
  | released {a : Attempt σ} : a.opened = [.base, .step] → (sessions .base).Used (a.session .base) →
    (sessions .step).Released (a.session .step) → HalfClosed sessions [.step] a

structure Cleared (sessions : Task → Session σ) (closings : List Task) (a : Attempt σ) : Prop where
  closings : closings = a.opened.reverse
  nodup : a.opened.Nodup
  released : ∀ task ∈ a.opened, (sessions task).Released (a.session task)
  unopened : ∀ task ∉ a.opened, Unopened (sessions task) (a.session task)

theorem cleared_of_opened_nil (hopened : a.opened = [])
    (hsessions : ∀ task, Unopened (sessions task) (a.session task)) : a.Cleared sessions [] where
  closings := by rw [hopened]; rfl
  nodup := by rw [hopened]; exact .nil
  released task htask := by
    rw [hopened] at htask
    cases htask
  unopened task _ := hsessions task

theorem Unused.cleared (h : a.Unused sessions) : a.Cleared sessions [] :=
  cleared_of_opened_nil h.opened fun task => .inl (h.session task)

theorem Unused.openBase {x : Except ProofError Unit} (h : a.Unused sessions)
    (hs : outcome (openSession .base) a = (x, a')) :
    x = .ok () ∧ a'.HalfOpen sessions ∨ (∃ e, x = .error e) ∧ a'.Cleared sessions [] := by
  obtain ⟨hothers, hopening⟩ := openSession_cases (h.session .base) hs
  have hstep : a'.session .step = sessions .step := (hothers .step (by decide)).trans (h.session .step)
  rw [h.opened] at hopening
  rcases hopening with ⟨hok, hopened, hused⟩ | ⟨hfailed, hopened, hunopened⟩
  · exact .inl ⟨hok, hopened, hused, hstep⟩
  · refine .inr ⟨hfailed, cleared_of_opened_nil hopened fun task => ?_⟩
    cases task with
    | base => exact hunopened
    | step => exact .inl hstep

theorem HalfOpen.openStep {x : Except ProofError Unit} (h : a.HalfOpen sessions)
    (hs : outcome (openSession .step) a = (x, a')) :
    x = .ok () ∧ a'.InUse sessions ∨ (∃ e, x = .error e) ∧ HalfClosed sessions [] a' := by
  obtain ⟨hothers, hopening⟩ := openSession_cases h.step hs
  have hbase : (sessions .base).Used (a'.session .base) := hothers .base (by decide) ▸ h.base
  rw [h.opened] at hopening
  rcases hopening with ⟨hok, hopened, hused⟩ | ⟨hfailed, hopened, hunopened⟩
  · refine .inl ⟨hok, hopened, fun task => ?_⟩
    cases task with
    | base => exact hbase
    | step => exact hused
  · exact .inr ⟨hfailed, .unopened hopened hbase hunopened⟩

theorem InUse.closeStep {x : Except ProofError Unit} (hclose : (sessions .step).Closes)
    (h : a.InUse sessions) (hs : outcome (closeSession .step) a = (x, a')) :
    x = .ok () ∧ HalfClosed sessions [.step] a' := by
  obtain ⟨hok, hopened, hreleased, hothers⟩ := closeSession_cases hclose (h.used .step) hs
  have hbase : (sessions .base).Used (a'.session .base) := hothers .base (by decide) ▸ h.used .base
  exact ⟨hok, .released (hopened.trans h.opened) hbase hreleased⟩

theorem HalfClosed.closeBase {closings : List Task} {x : Except ProofError Unit}
    (hclose : (sessions .base).Closes) (h : HalfClosed sessions closings a)
    (hs : outcome (closeSession .base) a = (x, a')) :
    x = .ok () ∧ a'.Cleared sessions (closings ++ [.base]) := by
  have hused : (sessions .base).Used (a.session .base) := by cases h <;> assumption
  obtain ⟨hok, hopened, hreleased, hothers⟩ := closeSession_cases hclose hused hs
  have hother : a'.session .step = a.session .step := hothers .step (by decide)
  refine ⟨hok, ?_⟩
  cases h with
  | unopened hbase _ hstep =>
    rw [hbase] at hopened
    rw [← hother] at hstep
    refine ⟨by rw [hopened]; rfl, by rw [hopened]; decide, fun task htask => ?_, fun task htask => ?_⟩
    · rw [hopened, List.mem_singleton] at htask
      exact htask ▸ hreleased
    · cases task with
      | base => exact absurd (hopened ▸ List.mem_cons_self) htask
      | step => exact hstep
  | released hboth _ hstep =>
    rw [hboth] at hopened
    rw [← hother] at hstep
    refine ⟨by rw [hopened]; rfl, by rw [hopened]; decide, fun task _ => ?_, fun task htask => ?_⟩
    · cases task with
      | base => exact hreleased
      | step => exact hstep
    · rw [hopened] at htask
      cases task with
      | base => exact absurd (by decide) htask
      | step => exact absurd (by decide) htask

end Attempt

/-! ### Where the sessions stand -/

def Stage.failure? : Stage → Option ProofError
  | .waiting _ (some (.error e)) (some _) => some e
  | .waiting _ (some (.ok _)) (some (.error e)) => some e
  | _ => none

theorem Stage.waiting_of_failure {stage : Stage} {e : ProofError} (h : stage.failure? = some e) :
    ∃ n bs os, stage = .waiting n (some bs) (some os) := by
  unfold Stage.failure? at h
  split at h
  · exact ⟨_, _, _, rfl⟩
  · exact ⟨_, _, _, rfl⟩
  · cases h

def Stage.Fails (e : ProofError) : Stage → Prop
  | .leaving _ q => q = .error e
  | .returned r => r = .error e
  | stage => stage.failure? = some e

namespace Supervision

open Attempt

variable {σ : Type} [Backend σ] {sessions : Task → Session σ} {names : List String} {fuel : Nat}
  {d d' : Supervision σ} {e : ProofError}

def Orderly (sessions : Task → Session σ) (d : Supervision σ) : Prop :=
  match d.stage with
  | .called | .opening .base => d.attempt.Unused sessions ∧ d.registered = [] ∧ d.closings = []
  | .opening .step => d.attempt.HalfOpen sessions ∧ d.closings = []
  | .starting | .deciding _ | .waiting .. | .leaving .step _ => d.attempt.InUse sessions ∧ d.closings = []
  | .leaving .base _ => HalfClosed sessions d.closings d.attempt
  | .returned _ => d.attempt.Cleared sessions d.closings ∧ d.registered = []

theorem Orderly.step (hclose : ∀ task, (sessions task).Closes) (h : d.Orderly sessions)
    (hstep : Step names fuel d d') : d'.Orderly sessions := by
  cases hstep with
  | refuse hstage hs | skip hstage hs =>
    simp only [Orderly, hstage] at h ⊢
    obtain ⟨hunused, hregistered, hclosings⟩ := h
    have hsame := keeps_checkNames names hunused hs trivial
    exact ⟨hclosings ▸ hsame.cleared, hregistered⟩
  | begin hstage hs =>
    simp only [Orderly, hstage] at h ⊢
    obtain ⟨hunused, hempty⟩ := h
    have hsame := keeps_checkNames names hunused hs trivial
    exact ⟨⟨hsame.opened, hsame.session⟩, hempty⟩
  | openBase hstage hs =>
    simp only [Orderly, hstage] at h ⊢
    obtain ⟨-, hhalf⟩ | ⟨⟨_, hfailed⟩, -⟩ := h.1.openBase hs
    · exact ⟨hhalf, h.2.2⟩
    · cases hfailed
  | failBase hstage hs =>
    simp only [Orderly, hstage] at h ⊢
    obtain ⟨hunused, hregistered, hclosings⟩ := h
    obtain ⟨hfailed, -⟩ | ⟨-, hcleared⟩ := hunused.openBase hs
    · cases hfailed
    · exact ⟨hclosings ▸ hcleared, hregistered⟩
  | openStep hstage hs =>
    simp only [Orderly, hstage] at h ⊢
    obtain ⟨-, hinUse⟩ | ⟨⟨_, hfailed⟩, -⟩ := h.1.openStep hs
    · exact ⟨hinUse, h.2⟩
    · cases hfailed
  | failStep hstage hs =>
    simp only [Orderly, hstage] at h ⊢
    obtain ⟨hhalf, hclosings⟩ := h
    obtain ⟨hfailed, -⟩ | ⟨-, hhalfClosed⟩ := hhalf.openStep hs
    · cases hfailed
    · exact hclosings ▸ hhalfClosed
  | build hstage hs | failBuild hstage hs =>
    simp only [Orderly, hstage] at h ⊢
    exact ⟨keeps_build h.1 hs trivial, h.2⟩
  | exhaust hstage | submit hstage =>
    simp only [Orderly, hstage] at h ⊢
    exact h
  | stop hstage _ hs =>
    simp only [Orderly, hstage] at h ⊢
    exact ⟨keeps_stop h.1 hs trivial, h.2⟩
  | workBase hstage _ hs =>
    simp only [Orderly, hstage] at h ⊢
    have hchecks := Engine.keeps_queryAll (Engine.bears_used (sessions .base)).base d.attempt.pending
    exact ⟨keeps_onEngine hchecks h.1 hs trivial, h.2⟩
  | workStep hstage _ hs =>
    simp only [Orderly, hstage] at h ⊢
    have hchecks := Engine.keeps_queryAll ((Engine.bears_used (sessions .step)).step d.attempt.lemmas)
      d.attempt.pending
    exact ⟨keeps_onEngine hchecks h.1 hs trivial, h.2⟩
  | goOn hstage hs | leave hstage hs =>
    simp only [Orderly, hstage] at h ⊢
    exact ⟨keeps_settle _ _ h.1.deliver hs trivial, h.2⟩
  | closeStep hstage hs =>
    simp only [Orderly, hstage] at h ⊢
    rw [h.2]
    exact (h.1.closeStep (hclose .step) hs).2
  | closeBase hstage hs =>
    simp only [Orderly, hstage] at h ⊢
    exact ⟨(h.closeBase (hclose .base) hs).2, trivial⟩
  | failClose hstage hs =>
    simp only [Orderly, hstage] at h ⊢
    cases (h.closeBase (hclose .base) hs).1

theorem Step.attended (h : d.working = d.stage.awaited) (hstep : Step names fuel d d') :
    d'.working = d'.stage.awaited := by
  cases hstep with
  | submit hstage => rfl
  | workBase hstage _ hs =>
    rw [hstage] at h
    simp only [h]
    cases ‹Option StepReport› <;> rfl
  | workStep hstage _ hs =>
    rw [hstage] at h
    simp only [h]
    cases ‹Option BaseReport› <;> rfl
  | _ =>
    -- no worker is at work before this step or after it
    simp_all [Stage.awaited]

theorem settle_failure {n : Nat} {bs : BaseReport} {os : StepReport}
    (h : Stage.failure? (.waiting n (some bs) (some os)) = some e) (a : Attempt σ) :
    outcome (settle bs os) a = (.error e, a) := by
  cases bs with
  | error _ =>
    cases h
    rfl
  | ok _ =>
    cases os with
    | error _ =>
      cases h
      rfl
    | ok _ => cases h

theorem Step.fails (hclose : ∀ task, (sessions task).Closes) (horderly : d.Orderly sessions)
    (h : d.stage.Fails e) (hstep : Step names fuel d d') : d'.stage.Fails e := by
  cases hstep with
  | workStep hstage =>
    rw [hstage] at h
    obtain ⟨_, _, _, hboth⟩ := Stage.waiting_of_failure h
    cases hboth
  | goOn hstage hs =>
    rw [hstage] at h
    rw [settle_failure h] at hs
    cases hs
  | leave hstage hs =>
    rw [hstage] at h
    rw [settle_failure h] at hs
    exact (congrArg Prod.fst hs).symm
  | closeStep hstage hs =>
    simp only [Orderly, hstage] at horderly
    obtain ⟨rfl, -⟩ := horderly.1.closeStep (hclose .step) hs
    rw [hstage] at h
    exact h
  | closeBase hstage =>
    rw [hstage] at h
    exact congrArg (returned names · _) h
  | failClose hstage hs =>
    simp only [Orderly, hstage] at horderly
    cases (horderly.closeBase (hclose .base) hs).1
  | _ =>
    -- no attempt is bound to fail before this step
    simp_all [Stage.Fails, Stage.failure?]

section

variable {r : Except ProofError (Option (Entries String ProofResult))}

theorem Orderly.steps (hclose : ∀ task, (sessions task).Closes) (h : d.Orderly sessions)
    (hsteps : Relation.ReflTransGen (Step names fuel) d d') : d'.Orderly sessions := by
  induction hsteps with
  | refl => exact h
  | tail _ hstep ih => exact ih.step hclose hstep

theorem attended_of_steps (h : d.working = d.stage.awaited)
    (hsteps : Relation.ReflTransGen (Step names fuel) d d') : d'.working = d'.stage.awaited := by
  induction hsteps with
  | refl => exact h
  | tail _ hstep ih => exact hstep.attended ih

theorem fails_of_steps (hclose : ∀ task, (sessions task).Closes) (horderly : d.Orderly sessions)
    (h : d.stage.Fails e) (hsteps : Relation.ReflTransGen (Step names fuel) d d') : d'.stage.Fails e := by
  induction hsteps with
  | refl => exact h
  | tail hsteps hstep ih => exact hstep.fails hclose (horderly.steps hclose hsteps) ih

omit [Backend σ] in
theorem fails_of_failure (h : d.stage.failure? = some e) : d.stage.Fails e := by
  obtain ⟨n, bs, os, hstage⟩ := Stage.waiting_of_failure h
  rw [hstage] at h ⊢
  exact h

omit [Backend σ] in
theorem unused_new (s : TransitionSystem) (c : Config) (cancelled : Bool) :
    (new s c cancelled sessions).Unused sessions where
  opened := rfl
  session task := by cases task <;> rfl

/-- Sessions that can be closed are released in the end, in whatever order the workers of a round end and
whatever fails, and a failure of a worker is what the attempt fails with. No attempt gets stuck before. -/
theorem sessions_released (hclose : ∀ task, (sessions task).Closes) (s : TransitionSystem) (c : Config)
    (cancelled : Bool) (names : List String) (fuel : Nat) :
    (∀ d, Relation.ReflTransGen (Step names fuel) { attempt := new s c cancelled sessions } d →
        d.Ends names fuel) ∧
      ∀ d r, Relation.ReflTransGen (Step names fuel) { attempt := new s c cancelled sessions } d →
        d.stage = .returned r →
          outcome (run names fuel) (new s c cancelled sessions) = (r, d.attempt) ∧
          d.attempt.Cleared sessions d.closings ∧ d.registered = [] ∧ d.working = [] ∧
          ∀ d₁ e, Relation.ReflTransGen (Step names fuel) { attempt := new s c cancelled sessions } d₁ →
            Relation.ReflTransGen (Step names fuel) d₁ d → d₁.stage.failure? = some e → r = .error e := by
  have hstart : Orderly sessions { attempt := new s c cancelled sessions } := ⟨unused_new s c cancelled, rfl, rfl⟩
  refine ⟨fun d hsteps => ends_of_attended (attended_of_steps rfl hsteps), fun d r hsteps hlast => ?_⟩
  have horderly := hstart.steps hclose hsteps
  have hworking := attended_of_steps rfl hsteps
  simp only [Orderly, hlast] at horderly
  rw [hlast] at hworking
  refine ⟨run_iff.mpr ⟨d, hsteps, hlast, rfl⟩, horderly.1, horderly.2, hworking, ?_⟩
  intro d₁ e hbefore hafter hfailure
  have hfails := fails_of_steps hclose (hstart.steps hclose hbefore) (fails_of_failure hfailure) hafter
  rw [hlast] at hfails
  exact hfails

end

def failingSessions : Task → Session Scripted
  | .base => Scripted.session "first" { fallback := some { result := .error "lost" } }
  | .step => Scripted.session "second" { fallback := some { result := .error "full" } }

theorem closes_scripted (s₀ : Session Scripted) : s₀.Closes := by
  intro t _
  rw [Session.outcome_close]
  split <;> rfl

def refusal? {α : Type} : Except ProofError α → Option String
  | .error (.session (.solver (.refused message))) => some message
  | _ => none

theorem outcome_eq_refused {τ α : Type} {m : ExceptT ProofError (StateM τ) α} {t : τ} (message : String)
    (h : refusal? (outcome m t).1 = some message) :
    outcome m t = (.error (.session (.solver (.refused message))), (outcome m t).2) := by
  rcases hs : outcome m t with ⟨q, t'⟩
  rw [hs] at h
  dsimp only at h
  unfold refusal? at h
  split at h
  · obtain rfl := Option.some.inj h
    rfl
  · cases h

/-- Both workers fail in the first round. The step comes to its end first, but the base case comes first. -/
theorem failingSessions_released :
    ∃ d₁ d : Supervision Scripted, Relation.ReflTransGen (Step ["first"] 1)
        { attempt := new flags ⟨{}, rfl⟩ false failingSessions } d₁ ∧
      d₁.stage.failure? = some (.session (.solver (.refused "lost"))) ∧
      Relation.ReflTransGen (Step ["first"] 1) d₁ d ∧
      outcome (run ["first"] 1) (new flags ⟨{}, rfl⟩ false failingSessions) =
        (.error (.session (.solver (.refused "lost"))), d.attempt) ∧
      d.attempt.Cleared failingSessions [.step, .base] := by
  obtain ⟨d₁, hworked, hfailure⟩ : ∃ d₁ : Supervision Scripted, Relation.ReflTransGen (Step ["first"] 1)
      { attempt := new flags ⟨{}, rfl⟩ false failingSessions } d₁ ∧
        d₁.stage.failure? = some (.session (.solver (.refused "lost"))) := by
    have hleft : Task.base ∈ [Task.base, Task.step].erase .step := by decide
    exact ⟨_, .head (.begin rfl (outcome_of_isOk (by decide +kernel)) (by decide)) <|
      .head (.openBase rfl (outcome_of_isOk (by decide +kernel))) <|
      .head (.openStep rfl (outcome_of_isOk (by decide +kernel))) <|
      .head (.build rfl (outcome_of_isOk (by decide +kernel))) <|
      .head (.submit rfl (by decide +kernel)) <|
      .head (.workStep rfl (by decide) (outcome_eq_refused "full" (by decide +kernel))) <|
      .head (.workBase rfl hleft (outcome_eq_refused "lost" (by decide +kernel))) .refl, rfl⟩
  obtain ⟨hends, hreleased⟩ := sessions_released (fun task => closes_scripted (failingSessions task)) flags
    ⟨{}, rfl⟩ false ["first"] 1
  obtain ⟨d, r, hended, hlast⟩ := hends d₁ hworked
  obtain ⟨hrun, hcleared, -, -, hfails⟩ := hreleased d r (hworked.trans hended) hlast
  obtain rfl := hfails d₁ _ hworked hended hfailure
  have hopened : (outcome (run ["first"] 1) (new flags ⟨{}, rfl⟩ false failingSessions)).2.opened =
      [.base, .step] := by decide +kernel
  rw [hrun] at hopened
  have hclosings : d.closings = [.step, .base] := by
    rw [hcleared.closings, hopened]
    rfl
  exact ⟨d₁, d, hworked, hfailure, hended, hrun, hclosings ▸ hcleared⟩

end Supervision

end InvariantProver
