import InvariantProver.Proofs.Prover.History
import Mathlib.Logic.Relation

/-!
An attempt step by step. Its own thread opens and closes the sessions and decides; the two workers of a round
come to their ends in any order, and the thread goes on when it has the reports of both. However the steps come in
turn, they come to what `Attempt.run` comes to (`run_iff`).
-/

namespace InvariantProver

abbrev BaseReport := Except ProofError (Entries String (Outcome Trace))

abbrev StepReport := Except ProofError (Entries String (Outcome Unit))

namespace Attempt

variable {σ : Type}

def given {α : Type} (q : Except ProofError α) : AttemptM σ α := fun a => (q, a)

def returned (names : List String) (q : Except ProofError Bool) (a : Attempt σ) :
    Except ProofError (Option (Entries String ProofResult)) :=
  q.map fun finished => if finished then some (a.resultsFor names) else none

variable [Backend σ]

def checkNames (names : List String) : AttemptM σ Unit :=
  names.forM fun name => do
    let _ ← onEngine .base (Engine.property name)

def build : AttemptM σ Unit := do
  onEngine .base BaseCase.start
  onEngine .step InductionStep.start

def settle (bs : BaseReport) (os : StepReport) : AttemptM σ Bool := do
  let (bs, os) ← given (do return (← bs, ← os))
  if (← get).isStopped then
    stop
    return true
  modify (decideRound bs os)
  conclude

def onward (n : Nat) (bs : BaseReport) (os : StepReport) : AttemptM σ Bool := do
  if ← settle bs os then return true
  rounds n

end Attempt

inductive Stage
  | called
  | opening (task : Task)
  | starting
  | deciding (fuel : Nat)
  | waiting (fuel : Nat) (base? : Option BaseReport) (step? : Option StepReport)
  | leaving (task : Task) (q : Except ProofError Bool)
  | returned (r : Except ProofError (Option (Entries String ProofResult)))

def Stage.awaited : Stage → List Task
  | .waiting _ base? step? =>
    (if base?.isNone then [.base] else []) ++ (if step?.isNone then [.step] else [])
  | _ => []

structure Supervision (σ : Type) where
  attempt : Attempt σ
  stage : Stage := .called
  registered : List Task := []
  working : List Task := []
  closings : List Task := []

namespace Supervision

open Attempt

variable {σ : Type} [Backend σ]

inductive Step (names : List String) (fuel : Nat) : Supervision σ → Supervision σ → Prop
  | refuse {d : Supervision σ} {a : Attempt σ} {e : ProofError} : d.stage = .called →
    outcome (checkNames names) d.attempt = (.error e, a) →
    Step names fuel d { d with attempt := a, stage := .returned (.error e) }
  | skip {d : Supervision σ} {a : Attempt σ} : d.stage = .called →
    outcome (checkNames names) d.attempt = (.ok (), a) → names = [] →
    Step names fuel d { d with attempt := a, stage := .returned (.ok (some [])) }
  | begin {d : Supervision σ} {a : Attempt σ} : d.stage = .called →
    outcome (checkNames names) d.attempt = (.ok (), a) → names ≠ [] →
    Step names fuel d { d with attempt := { a with pending := names }, stage := .opening .base }
  | openBase {d : Supervision σ} {a : Attempt σ} : d.stage = .opening .base →
    outcome (openSession .base) d.attempt = (.ok (), a) →
    Step names fuel d { d with
      attempt := a, stage := .opening .step, registered := d.registered ++ [.base] }
  | failBase {d : Supervision σ} {a : Attempt σ} {e : ProofError} : d.stage = .opening .base →
    outcome (openSession .base) d.attempt = (.error e, a) →
    Step names fuel d { d with attempt := a, stage := .returned (.error e) }
  | openStep {d : Supervision σ} {a : Attempt σ} : d.stage = .opening .step →
    outcome (openSession .step) d.attempt = (.ok (), a) →
    Step names fuel d { d with attempt := a, stage := .starting, registered := d.registered ++ [.step] }
  | failStep {d : Supervision σ} {a : Attempt σ} {e : ProofError} : d.stage = .opening .step →
    outcome (openSession .step) d.attempt = (.error e, a) →
    Step names fuel d { d with attempt := a, stage := .leaving .base (.error e) }
  | build {d : Supervision σ} {a : Attempt σ} : d.stage = .starting →
    outcome Attempt.build d.attempt = (.ok (), a) →
    Step names fuel d { d with attempt := a, stage := .deciding fuel }
  | failBuild {d : Supervision σ} {a : Attempt σ} {e : ProofError} : d.stage = .starting →
    outcome Attempt.build d.attempt = (.error e, a) →
    Step names fuel d { d with attempt := a, stage := .leaving .step (.error e) }
  | exhaust {d : Supervision σ} : d.stage = .deciding 0 →
    Step names fuel d { d with stage := .leaving .step (.ok false) }
  | stop {d : Supervision σ} {a : Attempt σ} {n : Nat} : d.stage = .deciding (n + 1) →
    d.attempt.isStopped = true → outcome Attempt.stop d.attempt = (.ok (), a) →
    Step names fuel d { d with attempt := a, stage := .leaving .step (.ok true) }
  | submit {d : Supervision σ} {n : Nat} : d.stage = .deciding (n + 1) → d.attempt.isStopped = false →
    Step names fuel d { d with stage := .waiting n none none, working := [.base, .step] }
  | workBase {d : Supervision σ} {a : Attempt σ} {n : Nat} {bs : BaseReport} {step? : Option StepReport} :
    d.stage = .waiting n none step? → .base ∈ d.working →
    outcome (onEngine .base (BaseCase.checkAll d.attempt.pending)) d.attempt = (bs, a) →
    Step names fuel d { d with
      attempt := a, stage := .waiting n (some bs) step?, working := d.working.erase .base }
  | workStep {d : Supervision σ} {a : Attempt σ} {n : Nat} {base? : Option BaseReport} {os : StepReport} :
    d.stage = .waiting n base? none → .step ∈ d.working →
    outcome (onEngine .step (InductionStep.checkAll d.attempt.lemmas d.attempt.pending)) d.attempt = (os, a) →
    Step names fuel d { d with
      attempt := a, stage := .waiting n base? (some os), working := d.working.erase .step }
  | goOn {d : Supervision σ} {a : Attempt σ} {n : Nat} {bs : BaseReport} {os : StepReport} :
    d.stage = .waiting n (some bs) (some os) → outcome (settle bs os) d.attempt.deliver = (.ok false, a) →
    Step names fuel d { d with attempt := a, stage := .deciding n }
  | leave {d : Supervision σ} {a : Attempt σ} {n : Nat} {bs : BaseReport} {os : StepReport}
      {q : Except ProofError Bool} :
    d.stage = .waiting n (some bs) (some os) → outcome (settle bs os) d.attempt.deliver = (q, a) →
    q ≠ .ok false → Step names fuel d { d with attempt := a, stage := .leaving .step q }
  | closeStep {d : Supervision σ} {a : Attempt σ} {x : Except ProofError Unit} {q : Except ProofError Bool} :
    d.stage = .leaving .step q → outcome (closeSession .step) d.attempt = (x, a) →
    Step names fuel d { d with
      attempt := a, stage := .leaving .base (do x; q), closings := d.closings ++ [.step] }
  | closeBase {d : Supervision σ} {a : Attempt σ} {q : Except ProofError Bool} :
    d.stage = .leaving .base q → outcome (closeSession .base) d.attempt = (.ok (), a) →
    Step names fuel d { d with
      attempt := a, stage := .returned (returned names q a), registered := [],
      closings := d.closings ++ [.base] }
  | failClose {d : Supervision σ} {a : Attempt σ} {e : ProofError} {q : Except ProofError Bool} :
    d.stage = .leaving .base q → outcome (closeSession .base) d.attempt = (.error e, a) →
    Step names fuel d { d with
      attempt := a, stage := .returned (.error e), closings := d.closings ++ [.base] }

/-! ### What is still to come -/

def leftBase (names : List String) (p : Except ProofError Bool × Attempt σ) :
    Except ProofError (Option (Entries String ProofResult)) × Attempt σ :=
  match outcome (closeSession .base) p.2 with
  | (.ok (), a) => (returned names p.1 a, a)
  | (.error e, a) => (.error e, a)

def leftStep (names : List String) (p : Except ProofError Bool × Attempt σ) :
    Except ProofError (Option (Entries String ProofResult)) × Attempt σ :=
  let (x, a) := outcome (closeSession .step) p.2
  leftBase names (do x; p.1, a)

def resumed (n : Nat) (base? : Option BaseReport) (step? : Option StepReport) (a : Attempt σ) :
    Except ProofError Bool × Attempt σ :=
  let (bs, a) := match base? with
    | some bs => (bs, a)
    | none => outcome (onEngine .base (BaseCase.checkAll a.pending)) a
  let (os, a) := match step? with
    | some os => (os, a)
    | none => outcome (onEngine .step (InductionStep.checkAll a.lemmas a.pending)) a
  outcome (onward n bs os) a.deliver

def rest (names : List String) (fuel : Nat) (d : Supervision σ) :
    Except ProofError (Option (Entries String ProofResult)) × Attempt σ :=
  match d.stage with
  | .called => outcome (run names fuel) d.attempt
  | .opening .base =>
    match outcome (openSession .base) d.attempt with
    | (.ok (), a) => leftBase names (outcome (withSession .step (do Attempt.build; rounds fuel)) a)
    | (.error e, a) => (.error e, a)
  | .opening .step => leftBase names (outcome (withSession .step (do Attempt.build; rounds fuel)) d.attempt)
  | .starting => leftStep names (outcome (do Attempt.build; rounds fuel) d.attempt)
  | .deciding n => leftStep names (outcome (rounds n) d.attempt)
  | .waiting n base? step? => leftStep names (resumed n base? step? d.attempt)
  | .leaving .step q => leftStep names (q, d.attempt)
  | .leaving .base q => leftBase names (q, d.attempt)
  | .returned r => (r, d.attempt)

section

variable {names : List String} {fuel n : Nat} {a a' : Attempt σ} {e : ProofError}

theorem run_eq (names : List String) (fuel : Nat) : (run names fuel : AttemptM σ _) = (do
    checkNames names
    if names.isEmpty then return some []
    modify fun a => { a with pending := names }
    let finished ← withSession .base (withSession .step (do Attempt.build; rounds fuel))
    let a ← get
    return if finished then some (a.resultsFor names) else none) := by
  unfold run checkNames Attempt.build
  simp only [bind_assoc]

theorem outcome_leftBase (m : AttemptM σ Bool) (a : Attempt σ) :
    outcome (do
      let finished ← ensuring m (closeSession .base)
      let a ← get
      return if finished then some (a.resultsFor names) else none) a = leftBase names (outcome m a) := by
  unfold leftBase
  rw [outcome_bind, outcome_ensuring]
  rcases outcome (closeSession .base) (outcome m a).2 with ⟨e | ⟨⟩, b⟩
  · rfl
  · cases (outcome m a).1 <;> rfl

theorem outcome_leftStep (m : AttemptM σ Bool) (a : Attempt σ) :
    leftBase names (outcome (ensuring m (closeSession .step)) a) = leftStep names (outcome m a) := by
  unfold leftStep
  rw [outcome_ensuring]
  rcases outcome (closeSession .step) (outcome m a).2 with ⟨e | ⟨⟩, b⟩ <;> rfl

theorem rest_called (h : outcome (checkNames names) a = (.ok (), a')) (hnames : names ≠ []) :
    outcome (run names fuel) a =
      match outcome (openSession .base) { a' with pending := names } with
      | (.ok (), b) => leftBase names (outcome (withSession .step (do Attempt.build; rounds fuel)) b)
      | (.error e, b) => (.error e, b) := by
  have hnonempty : ¬ names.isEmpty = true := by simpa using hnames
  rw [run_eq, outcome_bind_of_ok h, outcome_ite, if_neg hnonempty, outcome_bind_of_ok (outcome_modify _ _),
    withSession, bind_assoc, outcome_bind]
  rcases outcome (openSession .base) { a' with pending := names } with ⟨e | ⟨⟩, b⟩
  · rfl
  · exact outcome_leftBase _ b

theorem outcome_run_nil (h : outcome (checkNames []) a = (.ok (), a')) :
    outcome (run [] fuel) a = (.ok (some []), a') := by
  rw [run_eq, outcome_bind_of_ok h]
  rfl

theorem outcome_run_error (h : outcome (checkNames names) a = (.error e, a')) :
    outcome (run names fuel) a = (.error e, a') := by
  rw [run_eq, outcome_bind, h]

theorem outcome_round_going (hgoing : a.isStopped = false) :
    outcome round a = outcome (settle (outcome (BaseCase.checkAll a.pending) a.engines.base).1
      (outcome (InductionStep.checkAll a.lemmas a.pending) a.engines.step).1) (outcome checks a).2 := by
  rw [Attempt.round_eq, outcome_bind_of_ok (outcome_get a), outcome_ite, if_neg (by simp [hgoing]), outcome_bind,
    settle, outcome_bind]
  rfl

theorem outcome_rounds_going (hgoing : a.isStopped = false) :
    outcome (rounds (n + 1)) a = resumed n none none a := by
  have hresumed : resumed n none none a =
      outcome (onward n (outcome (BaseCase.checkAll a.pending) a.engines.base).1
        (outcome (InductionStep.checkAll a.lemmas a.pending) a.engines.step).1) (outcome checks a).2 := rfl
  unfold rounds
  rw [hresumed, onward, outcome_bind, outcome_bind, outcome_round_going hgoing]

theorem outcome_rounds_stopped (hstopped : a.isStopped = true) (h : outcome stop a = (.ok (), a')) :
    outcome (rounds (n + 1)) a = (.ok true, a') := by
  have hround : outcome round a = (.ok true, a') := by
    rw [Attempt.round_eq, outcome_bind_of_ok (outcome_get a), outcome_ite, if_pos hstopped, outcome_bind_of_ok h]
    rfl
  unfold rounds
  rw [outcome_bind_of_ok hround]
  rfl

theorem resumed_base {step? : Option StepReport} {bs : BaseReport}
    (h : outcome (onEngine .base (BaseCase.checkAll a.pending)) a = (bs, a')) :
    resumed n none step? a = resumed n (some bs) step? a' := by
  unfold resumed
  simp only [h]

theorem resumed_step {base? : Option BaseReport} {os : StepReport}
    (h : outcome (onEngine .step (InductionStep.checkAll a.lemmas a.pending)) a = (os, a')) :
    resumed n base? none a = resumed n base? (some os) a' := by
  rw [outcome_onEngine] at h
  obtain ⟨rfl, rfl⟩ := Prod.mk.inj h
  cases base? with
  | none => rfl
  | some bs => rfl

theorem onward_of_open {bs : BaseReport} {os : StepReport} (h : outcome (settle bs os) a = (.ok false, a')) :
    outcome (onward n bs os) a = outcome (rounds n) a' := by
  unfold onward
  rw [outcome_bind_of_ok h]
  rfl

theorem onward_of_last {q : Except ProofError Bool} {bs : BaseReport} {os : StepReport}
    (h : outcome (settle bs os) a = (q, a')) (hq : q ≠ .ok false) :
    outcome (onward n bs os) a = (q, a') := by
  unfold onward
  rw [outcome_bind, h]
  rcases q with e | _ | _
  · rfl
  · exact absurd rfl hq
  · rfl

end

theorem rest_step {names : List String} {fuel : Nat} {d d' : Supervision σ} (h : Step names fuel d d') :
    rest names fuel d' = rest names fuel d := by
  cases h with
  | refuse hstage h =>
    simp only [rest, hstage]
    rw [outcome_run_error h]
  | skip hstage h hnames =>
    subst hnames
    simp only [rest, hstage]
    rw [outcome_run_nil h]
  | begin hstage h hnames =>
    simp only [rest, hstage]
    rw [rest_called h hnames]
  | openBase hstage h => simp only [rest, hstage, h]
  | failBase hstage h => simp only [rest, hstage, h]
  | openStep hstage h =>
    simp only [rest, hstage]
    rw [withSession, outcome_bind_of_ok h, outcome_leftStep]
  | failStep hstage h =>
    simp only [rest, hstage]
    rw [withSession, outcome_bind, h]
  | build hstage h =>
    simp only [rest, hstage]
    rw [outcome_bind_of_ok h]
  | failBuild hstage h =>
    simp only [rest, hstage]
    rw [outcome_bind, h]
  | exhaust hstage =>
    simp only [rest, hstage]
    rfl
  | stop hstage hstopped h =>
    simp only [rest, hstage]
    rw [outcome_rounds_stopped hstopped h]
  | submit hstage hgoing =>
    simp only [rest, hstage]
    rw [outcome_rounds_going hgoing]
  | workBase hstage hworking h =>
    simp only [rest, hstage]
    rw [resumed_base h]
  | workStep hstage hworking h =>
    simp only [rest, hstage]
    rw [resumed_step h]
  | goOn hstage h =>
    simp only [rest, hstage, resumed]
    rw [onward_of_open h]
  | leave hstage h hq =>
    simp only [rest, hstage, resumed]
    rw [onward_of_last h hq]
  | closeStep hstage h => simp only [rest, hstage, leftStep, h]
  | closeBase hstage h => simp only [rest, hstage, leftBase, h]
  | failClose hstage h => simp only [rest, hstage, leftBase, h]

theorem rest_steps {names : List String} {fuel : Nat} {d d' : Supervision σ}
    (h : Relation.ReflTransGen (Step names fuel) d d') : rest names fuel d' = rest names fuel d := by
  induction h with
  | refl => rfl
  | tail _ hstep ih => rw [rest_step hstep, ih]

/-! ### Every attempt comes to an end -/

def Ends (names : List String) (fuel : Nat) (d : Supervision σ) : Prop :=
  ∃ d' r, Relation.ReflTransGen (Step names fuel) d d' ∧ d'.stage = .returned r

section

variable {names : List String} {fuel n : Nat} {d d' : Supervision σ}

theorem Ends.step (h : Step names fuel d d') (h' : d'.Ends names fuel) : d.Ends names fuel := by
  obtain ⟨last, r, hsteps, hlast⟩ := h'
  exact ⟨last, r, hsteps.head h, hlast⟩

theorem Ends.last {r : Except ProofError (Option (Entries String ProofResult))} (h : Step names fuel d d')
    (hlast : d'.stage = .returned r) : d.Ends names fuel :=
  ⟨d', r, .single h, hlast⟩

theorem ends_of_leaving {task : Task} {q : Except ProofError Bool} (h : d.stage = .leaving task q) :
    d.Ends names fuel := by
  have hbase : ∀ {d : Supervision σ} {q}, d.stage = .leaving .base q → d.Ends names fuel := by
    intro d q h
    rcases hclose : outcome (closeSession .base) d.attempt with ⟨e | ⟨⟩, a⟩
    · exact .last (.failClose h hclose) rfl
    · exact .last (.closeBase h hclose) rfl
  cases task with
  | base => exact hbase h
  | step =>
    apply Ends.step (.closeStep h rfl)
    exact hbase rfl

theorem ends_of_waiting {base? : Option BaseReport} {step? : Option StepReport}
    (hnext : ∀ d : Supervision σ, d.stage = .deciding n → d.Ends names fuel)
    (h : d.stage = .waiting n base? step?) (hworking : d.working = d.stage.awaited) : d.Ends names fuel := by
  have hboth : ∀ {d : Supervision σ} {bs os}, d.stage = .waiting n (some bs) (some os) → d.Ends names fuel := by
    intro d bs os h
    rcases hsettle : outcome (settle bs os) d.attempt.deliver with ⟨q, a⟩
    by_cases hq : q = .ok false
    · rw [hq] at hsettle
      apply Ends.step (.goOn h hsettle)
      exact hnext _ rfl
    · apply Ends.step (.leave h hsettle hq)
      exact ends_of_leaving rfl
  have hbase : ∀ {d : Supervision σ} {bs step?}, d.stage = .waiting n (some bs) step? →
      d.working = d.stage.awaited → d.Ends names fuel := by
    intro d bs step? h hworking
    cases step? with
    | some os => exact hboth h
    | none =>
      rw [h] at hworking
      have hleft : Task.step ∈ d.working := by simp [hworking, Stage.awaited]
      apply Ends.step (.workStep h hleft rfl)
      exact hboth rfl
  cases base? with
  | some bs => exact hbase h hworking
  | none =>
    rw [h] at hworking
    have hleft : Task.base ∈ d.working := by simp [hworking, Stage.awaited]
    apply Ends.step (.workBase h hleft rfl)
    apply hbase rfl
    simp only [hworking]
    rfl

theorem ends_of_deciding (h : d.stage = .deciding n) : d.Ends names fuel := by
  induction n generalizing d with
  | zero =>
    apply Ends.step (.exhaust h)
    exact ends_of_leaving rfl
  | succ n ih =>
    cases hstopped : d.attempt.isStopped with
    | true =>
      apply Ends.step (.stop h hstopped rfl)
      exact ends_of_leaving rfl
    | false =>
      apply Ends.step (.submit h hstopped)
      exact ends_of_waiting (fun _ => ih) rfl rfl

theorem ends_of_starting (h : d.stage = .starting) : d.Ends names fuel := by
  rcases hbuild : outcome Attempt.build d.attempt with ⟨e | ⟨⟩, a⟩
  · apply Ends.step (.failBuild h hbuild)
    exact ends_of_leaving rfl
  · apply Ends.step (.build h hbuild)
    exact ends_of_deciding rfl

theorem ends_of_opening {task : Task} (h : d.stage = .opening task) : d.Ends names fuel := by
  have hstep : ∀ {d : Supervision σ}, d.stage = .opening .step → d.Ends names fuel := by
    intro d h
    rcases hopen : outcome (openSession .step) d.attempt with ⟨e | ⟨⟩, a⟩
    · apply Ends.step (.failStep h hopen)
      exact ends_of_leaving rfl
    · apply Ends.step (.openStep h hopen)
      exact ends_of_starting rfl
  cases task with
  | base =>
    rcases hopen : outcome (openSession .base) d.attempt with ⟨e | ⟨⟩, a⟩
    · exact .last (.failBase h hopen) rfl
    · apply Ends.step (.openBase h hopen)
      exact hstep rfl
  | step => exact hstep h

theorem ends_of_called (h : d.stage = .called) : d.Ends names fuel := by
  rcases hknown : outcome (checkNames names) d.attempt with ⟨e | ⟨⟩, a⟩
  · exact .last (.refuse h hknown) rfl
  · by_cases hnames : names = []
    · exact .last (.skip h hknown hnames) rfl
    · apply Ends.step (.begin h hknown hnames)
      exact ends_of_opening rfl

theorem ends_of_attended (h : d.working = d.stage.awaited) : d.Ends names fuel := by
  cases hstage : d.stage with
  | called => exact ends_of_called hstage
  | opening task => exact ends_of_opening hstage
  | starting => exact ends_of_starting hstage
  | deciding n => exact ends_of_deciding hstage
  | waiting n base? step? => exact ends_of_waiting (fun _ => ends_of_deciding) hstage h
  | leaving task q => exact ends_of_leaving hstage
  | returned r => exact ⟨d, r, .refl, hstage⟩

/-- What an attempt comes to step by step, in whatever order its workers end, is what it comes to. -/
theorem run_iff {a a' : Attempt σ} {r : Except ProofError (Option (Entries String ProofResult))} :
    outcome (run names fuel) a = (r, a') ↔
      ∃ d, Relation.ReflTransGen (Step names fuel) { attempt := a } d ∧ d.stage = .returned r ∧
        d.attempt = a' := by
  constructor
  · intro h
    -- one way to the end is enough, as what is still to come stays the same on every way
    have hends : Ends names fuel { attempt := a } := ends_of_called rfl
    obtain ⟨d, r', hsteps, hlast⟩ := hends
    have hrest := rest_steps hsteps
    simp only [rest, hlast, h] at hrest
    obtain ⟨rfl, hattempt⟩ := Prod.mk.inj hrest
    exact ⟨d, hsteps, hlast, hattempt⟩
  · rintro ⟨d, hsteps, hlast, rfl⟩
    have hrest := rest_steps hsteps
    simp only [rest, hlast] at hrest
    exact hrest.symm

end

end Supervision

end InvariantProver
