import InvariantProver.Proofs.Prover.Alignment
import InvariantProver.Proofs.Prover.Justification

/-!
Rounds of an attempt. In round `n` the base case has placed the steps up to `n` and the induction one
more, and no open property is violated before `n`. A round keeps this for the next one, or else it is
the last and all results are justified.
-/

namespace InvariantProver.Attempt

open Session Engine

variable {σ : Type}

theorem outcome_onEngine {α : Type} (task : Task) (m : EngineM σ α) (a : Attempt σ) :
    outcome (onEngine task m) a =
      ((outcome m (a.engines.get task)).1,
        { a with engines := a.engines.set (outcome m (a.engines.get task)).2 task }) := rfl

theorem onEngine_eq_ok {α : Type} {task : Task} {m : EngineM σ α} {a a' : Attempt σ} {x : α}
    (h : outcome (onEngine task m) a = (.ok x, a')) :
    ∃ e, outcome m (a.engines.get task) = (.ok x, e) ∧
      a' = { a with engines := a.engines.set e task } := by
  rw [outcome_onEngine] at h
  obtain ⟨hx, rfl⟩ := Prod.mk.inj h
  exact ⟨_, Prod.ext hx rfl, rfl⟩

theorem outcome_onEngine_ok {α : Type} {task : Task} {m : EngineM σ α} {a : Attempt σ} {x : α}
    {e : Engine σ} (h : outcome m (a.engines.get task) = (.ok x, e)) :
    outcome (onEngine task m) a = (.ok x, { a with engines := a.engines.set e task }) := by
  rw [outcome_onEngine, h]

variable [Backend σ]

def conclude : AttemptM σ Bool := do
  let a ← get
  if a.pending.isEmpty then return true
  if a.config.depthBound.any (· ≤ a.engines.base.depth) then
    modify (giveUp depthExhaustedReason a.engines.base.depth)
    return true
  onEngine .base Engine.advance
  onEngine .step Engine.advance
  return false

theorem round_eq : (round : AttemptM σ Bool) = (do
    if (← get).isStopped then
      stop
      return true
    let (bs, os) ← checks
    if (← get).isStopped then
      stop
      return true
    modify (decideRound bs os)
    conclude) := rfl

theorem outcome_checks (a : Attempt σ) :
    outcome checks a =
      ((do return (← (outcome (BaseCase.checkAll a.pending) a.engines.base).1,
          ← (outcome (InductionStep.checkAll a.lemmas a.pending) a.engines.step).1)),
        deliver { a with
          engines := ⟨(outcome (BaseCase.checkAll a.pending) a.engines.base).2,
            (outcome (InductionStep.checkAll a.lemmas a.pending) a.engines.step).2⟩ }) := rfl

theorem checks_eq_ok {a a' : Attempt σ} {bs : Entries String (Outcome Trace)}
    {os : Entries String (Outcome Unit)} (h : outcome checks a = (.ok (bs, os), a')) :
    ∃ base step, outcome (BaseCase.checkAll a.pending) a.engines.base = (.ok bs, base) ∧
      outcome (InductionStep.checkAll a.lemmas a.pending) a.engines.step = (.ok os, step) ∧
      a' = deliver { a with engines := ⟨base, step⟩ } := by
  rw [outcome_checks] at h
  obtain ⟨hresults, rfl⟩ := Prod.mk.inj h
  rcases hbase : outcome (BaseCase.checkAll a.pending) a.engines.base with ⟨e | bs', base⟩
  · simp [hbase, bind, Except.bind] at hresults
  rcases hstep : outcome (InductionStep.checkAll a.lemmas a.pending) a.engines.step with ⟨e | os', step⟩
  · simp [hbase, hstep, bind, Except.bind] at hresults
  · simp only [hbase, hstep, bind, Except.bind, pure, Except.pure, Except.ok.injEq,
      Prod.mk.injEq] at hresults
    obtain ⟨rfl, rfl⟩ := hresults
    exact ⟨base, step, rfl, rfl, rfl⟩

theorem outcome_withSession {α : Type} {task : Task} {m : AttemptM σ α} {q : Except ProofError α}
    {a a₁ a₂ a' : Attempt σ} (hopen : outcome (openSession task) a = (.ok (), a₁))
    (hm : outcome m a₁ = (q, a₂)) (hclose : outcome (closeSession task) a₂ = (.ok (), a')) :
    outcome (withSession task m) a = (q, a') := by
  unfold withSession
  rw [outcome_bind_of_ok hopen, outcome_ensuring, hm, hclose]

omit [Backend σ] in
theorem get_set (e : Engines σ) (engine : Engine σ) (task : Task) :
    (e.set engine task).get task = engine := by cases task <;> rfl

def enter (a : Attempt σ) (task : Task) (t : Session σ) : Attempt σ :=
  { a with
    engines := a.engines.set { a.engines.get task with session := t } task
    opened := a.opened ++ [task] }

theorem outcome_openSession_ok {a : Attempt σ} {task : Task} {t : Session σ}
    (hstart : outcome Session.start (a.engines.get task).session = (.ok (), t)) :
    outcome (openSession task) a =
      (.ok (), a.enter task (if (a.enter task t).isCancelled then t.interrupt else t)) := by
  have htalk : outcome (talk Session.start) (a.engines.get task) =
      (.ok (), { a.engines.get task with session := t }) := by
    rw [outcome_talk, hstart]
    rfl
  have hnote : outcome (modify fun a => { a with opened := a.opened ++ [task] } : AttemptM σ PUnit)
      { a with engines := a.engines.set { a.engines.get task with session := t } task } =
        (.ok (), a.enter task t) := rfl
  unfold openSession
  rw [outcome_bind_of_ok (outcome_onEngine_ok htalk), outcome_bind_of_ok hnote,
    outcome_bind_of_ok (outcome_get (a.enter task t)), outcome_ite]
  by_cases hcancelled : (a.enter task t).isCancelled = true
  · rw [if_pos hcancelled, if_pos hcancelled, outcome_onEngine]
    cases task <;> rfl
  · rw [if_neg hcancelled, if_neg hcancelled]
    rfl

theorem outcome_openSession_error {a : Attempt σ} {task : Task} {t : Session σ} {fault : SessionError}
    (hstart : outcome Session.start (a.engines.get task).session = (.error fault, t)) :
    outcome (openSession task) a =
      (.error (.session fault),
        { a with engines := a.engines.set { a.engines.get task with session := t } task }) := by
  unfold openSession
  rw [outcome_bind, outcome_onEngine, outcome_talk, hstart]
  rfl

structure Running (sessions : Task → Session σ) (s : TransitionSystem) (n : Nat) (a : Attempt σ) :
    Prop where
  system : a.system = s
  aligned : a.engines.Aligned .unbroken (sessions .base) (sessions .step) s n

section

variable {sessions : Task → Session σ} {z : ZeroReading} {s : TransitionSystem} {exact : Prop} {n : Nat}
  {a a' : Attempt σ}

theorem Running.deliver (h : Running sessions s n a) : Running sessions s n a.deliver :=
  ⟨h.system, ⟨h.aligned.base.1.interrupt _, h.aligned.base.2⟩,
    ⟨h.aligned.step.1.interrupt _, h.aligned.step.2⟩⟩

theorem Sound.stop {finished : Bool} (hrunning : Running sessions s n a)
    (h : Sound z s exact n a) (hs : outcome (Attempt.stop >>= fun _ => pure true) a = (.ok finished, a')) :
    finished = true ∧ ∃ m, Sound z s exact m a' := by
  obtain ⟨hfinished, rfl⟩ := outcome_pure_ok.mp hs
  refine ⟨hfinished.symm, n, h.giveUp ?_⟩
  rw [hrunning.aligned.depth]
  omega

variable (hbase : Truthful .unbroken z (sessions .base)) (hstep : Truthful .unbroken z (sessions .step))
include hbase hstep

theorem Running.checks {bs : Entries String (Outcome Trace)} {os : Entries String (Outcome Unit)}
    (h : Running sessions s n a) (hlemmas : ∀ t ∈ a.lemmas, s.Invariant z t)
    (hs : outcome checks a = (.ok (bs, os), a')) :
    Running sessions s n a' ∧ a' = { a with engines := a'.engines } ∧
      (∀ name ∈ a.pending, ∃ b, Entries.get? name bs = some b ∧
        BaseCase.Supports z s (GivesModels .unbroken z (sessions .base)) n name b) ∧
      ∀ name ∈ a.pending, ∃ o, Entries.get? name os = some o ∧
        InductionStep.Supports z s a.lemmas (n + 1) name o := by
  obtain ⟨base, step, hbs, hos, rfl⟩ := checks_eq_ok hs
  have hbaseNow := BaseCase.keeps_checkAll hbase.scopes _ h.aligned.base hbs (Course.allows_ok _ _)
  have hstepNow :=
    InductionStep.keeps_checkAll hstep.scopes _ _ h.aligned.step hos (Course.allows_ok _ _)
  have hrunning : Running sessions s n { a with engines := ⟨base, step⟩ } :=
    ⟨h.system, hbaseNow, hstepNow⟩
  refine ⟨hrunning.deliver, rfl, fun name hname => ?_, fun name hname => ?_⟩
  · obtain ⟨hall, hsupports⟩ := BaseCase.supports_of_checkAll hbase h.aligned.base hbs
    obtain ⟨b, hb⟩ := hall name hname
    exact ⟨b, hb, hsupports name b hb⟩
  · obtain ⟨hall, hsupports⟩ := InductionStep.supports_of_checkAll hstep h.aligned.step
      (fun t ht => (hlemmas t ht).steps) hos
    obtain ⟨o, ho⟩ := hall name hname
    exact ⟨o, ho, hsupports name o ho⟩

theorem Running.advance {a₁ a₂ : Attempt σ} (h : Running sessions s n a)
    (h₁ : outcome (onEngine .base Engine.advance) a = (.ok (), a₁))
    (h₂ : outcome (onEngine .step Engine.advance) a₁ = (.ok (), a₂)) :
    Running sessions s (n + 1) a₂ ∧ a₂ = { a with engines := a₂.engines } := by
  obtain ⟨base, hbaseAdvance, rfl⟩ := onEngine_eq_ok h₁
  obtain ⟨step, hstepAdvance, rfl⟩ := onEngine_eq_ok h₂
  exact ⟨⟨h.system, h.aligned.advance hbase.scopes hstep.scopes hbaseAdvance hstepAdvance⟩, rfl⟩

theorem Sound.conclude {finished : Bool} (hrunning : Running sessions s n a)
    (h : Sound z s exact (n + 1) a) (hs : outcome conclude a = (.ok finished, a')) :
    (finished = true ∧ ∃ m, Sound z s exact m a') ∨
      (finished = false ∧ Running sessions s (n + 1) a' ∧ Sound z s exact (n + 1) a') := by
  unfold Attempt.conclude at hs
  rw [outcome_bind_of_ok (outcome_get a), outcome_ite] at hs
  split at hs
  · obtain ⟨rfl, rfl⟩ := outcome_pure_ok.mp hs
    exact .inl ⟨rfl, n + 1, h⟩
  rw [outcome_ite] at hs
  split at hs
  · obtain ⟨rfl, rfl⟩ := outcome_pure_ok.mp hs
    refine .inl ⟨rfl, n + 1, h.giveUp ?_⟩
    rw [hrunning.aligned.depth]
    omega
  · obtain ⟨⟨⟩, a₁, hadvance, hs⟩ := outcome_bind_ok.mp hs
    obtain ⟨⟨⟩, a₂, hadvance', hs⟩ := outcome_bind_ok.mp hs
    obtain ⟨rfl, rfl⟩ := outcome_pure_ok.mp hs
    obtain ⟨hrunning', ha₂⟩ := hrunning.advance hbase hstep hadvance hadvance'
    refine .inr ⟨rfl, hrunning', ?_⟩
    rw [ha₂]
    exact ⟨h.pending, h.results, h.proved⟩

theorem Sound.round {finished : Bool} (hrunning : Running sessions s n a)
    (h : Sound z s (GivesModels .unbroken z (sessions .base)) n a)
    (hs : outcome round a = (.ok finished, a')) :
    (finished = true ∧ ∃ m, Sound z s (GivesModels .unbroken z (sessions .base)) m a') ∨
      (finished = false ∧ Running sessions s (n + 1) a' ∧
        Sound z s (GivesModels .unbroken z (sessions .base)) (n + 1) a') := by
  rw [round_eq, outcome_bind_of_ok (outcome_get a), outcome_ite] at hs
  split at hs
  · exact .inl (h.stop hrunning hs)
  obtain ⟨⟨bs, os⟩, a₁, hchecks, hs⟩ := outcome_bind_ok.mp hs
  obtain ⟨hrunning₁, ha₁, hbs, hos⟩ := hrunning.checks hbase hstep (h.lemmas hrunning.system) hchecks
  have h₁ : Sound z s (GivesModels .unbroken z (sessions .base)) n a₁ := by
    rw [ha₁]
    exact ⟨h.pending, h.results, h.proved⟩
  rw [outcome_bind_of_ok (outcome_get a₁), outcome_ite] at hs
  split at hs
  · exact .inl (h₁.stop hrunning₁ hs)
  rw [outcome_bind_of_ok (outcome_modify _ a₁)] at hs
  have hpending : a₁.pending = a.pending := by rw [ha₁]
  have hlemmas : a₁.lemmas = a.lemmas := by rw [ha₁]; rfl
  have hrunning₂ : Running sessions s n (a₁.decideRound bs os) := by
    unfold Attempt.decideRound
    exact ⟨by simpa using hrunning₁.system, by simpa using hrunning₁.aligned⟩
  refine Sound.conclude hbase hstep hrunning₂ (h₁.decideRound hrunning₁.system ?_ ?_) hs
  · rw [hpending]
    exact hbs
  · rw [hpending, hlemmas]
    exact hos

theorem Sound.rounds {fuel : Nat} (hrunning : Running sessions s n a)
    (h : Sound z s (GivesModels .unbroken z (sessions .base)) n a)
    (hs : outcome (rounds fuel) a = (.ok true, a')) :
    ∃ m, Sound z s (GivesModels .unbroken z (sessions .base)) m a' := by
  induction fuel generalizing n a with
  | zero =>
    obtain ⟨hfalse, -⟩ := outcome_pure_ok.mp hs
    cases hfalse
  | succ fuel ih =>
    obtain ⟨finished, a₁, hround, hs⟩ := outcome_bind_ok.mp hs
    rcases h.round hbase hstep hrunning hround with ⟨rfl, hsound⟩ | ⟨rfl, hrunning₁, h₁⟩
    · obtain ⟨-, rfl⟩ := outcome_pure_ok.mp hs
      exact hsound
    · exact ih hrunning₁ h₁ hs

end

end InvariantProver.Attempt
