import InvariantProver.Proofs.Prover.Exactness
import InvariantProver.Proofs.Prover.History
import InvariantProver.Proofs.Prover.Lasting
import InvariantProver.Proofs.Prover.Service
import InvariantProver.Proofs.Session.Scripts

/-!
Cancellation. Whoever cancels an attempt, it reaches the sessions within one of their operations: these
may be interrupted, ask to cancel the attempt or wait for the end of its time whenever they like. The
results that were there before remain, all other names are given up at the depth that the base case
has come to, and nothing else happens.
-/

namespace InvariantProver

open Session Engine

section

variable {σ : Type} [Backend σ] {s₀ : Session σ} {s : TransitionSystem} {e e' : Engine σ} {n : Nat}
  {name : String}

def BaseCase.Clears (s₀ : Session σ) (s : TransitionSystem) (name : String) (n : Nat) : Prop :=
  ∃ p q t t', s.property name = .ok p ∧ (p.reindex n).negate = .ok q ∧
    Holding .any s₀ (Task.base.asserted s (n + 1) ++ [q]) t ∧
    outcome Session.check t = (.ok .unsat, t')

theorem BaseCase.clears_of_check {o : Outcome Trace} (h : e.Standing .any s₀ s .base (· = n + 1))
    (hs : outcome (check name) e = (.ok o, e')) (ho : o.finding = .nothing) : Clears s₀ s name n := by
  obtain ⟨p, q, hp, hq, -, a, t, t', hholding, hcheck, hreports⟩ := check_ok h hs
  rw [ho] at hreports
  cases a with
  | unsat => exact ⟨p, q, t, t', hp, hq, hholding, hcheck⟩
  | sat => exact hreports.elim
  | unknown reason => exact hreports.elim

end

namespace Attempt

variable {σ : Type} [Backend σ] {fails : Task → SessionError → Prop} {sessions : Task → Session σ}
  {s : TransitionSystem} {c : Config} {cancelled : Bool} {a a' : Attempt σ} {n i j : Nat}

structure Engaged (sessions : Task → Session σ) (s : TransitionSystem) (c : Config) (cancelled : Bool)
    (i j : Nat) (a : Attempt σ) : Prop where
  system : a.system = s
  config : a.config = c
  cancelled : a.cancelled = cancelled
  base : a.engines.base.AtWork (sessions .base) s .base i
  step : a.engines.step.AtWork (sessions .step) s .step j

def Known (s : TransitionSystem) (names : List String) : Prop :=
  ∀ name ∈ names, ∃ p, s.property name = .ok p

theorem Engaged.depth (h : a.Engaged sessions s c cancelled (n + 1) j) : a.engines.base.depth = n :=
  depth_of_placed h.base.placed

theorem Engaged.deliver (h : a.Engaged sessions s c cancelled i j) :
    a.deliver.Engaged sessions s c cancelled i j :=
  ⟨h.system, h.config, h.cancelled, h.base.interrupt _, h.step.interrupt _⟩

theorem Engaged.finishAll (h : a.Engaged sessions s c cancelled i j) (rs : List ProofResult) :
    (a.finishAll rs).Engaged sessions s c cancelled i j :=
  ⟨by simpa using h.system, by simpa using h.config, by simpa using h.cancelled,
    by simpa using h.base, by simpa using h.step⟩

theorem Engaged.decideRound (h : a.Engaged sessions s c cancelled i j)
    (bs : Entries String (Outcome Trace)) (os : Entries String (Outcome Unit)) :
    (a.decideRound bs os).Engaged sessions s c cancelled i j := by
  have hwarned : Engaged sessions s c cancelled i j
      { a with warnings := a.warnings ++ a.replayWarnings bs } :=
    ⟨h.system, h.config, h.cancelled, h.base, h.step⟩
  exact hwarned.finishAll _

theorem Engaged.checks (ho : ∀ task, Obliging s.variables (fails task) (sessions task))
    (h : a.Engaged sessions s c cancelled (n + 1) (n + 2)) (hknown : Known s a.pending)
    {r : Except ProofError (Entries String (Outcome Trace) × Entries String (Outcome Unit))}
    (hs : outcome checks a = (r, a')) :
    a'.Engaged sessions s c cancelled (n + 1) (n + 2) ∧
      FailsOnlyBy (ReadingFault s.variables (fails .base) (sessions .base)) r ∧
      ∀ bs os, r = .ok (bs, os) → ∀ name ∈ a.pending,
        (∃ b, Entries.get? name bs = some b ∧
          (b.finding = .nothing → BaseCase.Clears (sessions .base) s name n)) ∧
        ∃ o, Entries.get? name os = some o := by
  have hhypotheses : ∀ t ∈ a.lemmas, ∃ name, s.property name = .ok t := by
    intro t ht
    obtain ⟨name, -, hname⟩ := property_of_mem_lemmas ht
    exact ⟨name, h.system ▸ hname⟩
  have hbaseServes : Serves (ReadingFault s.variables (fails .base) (sessions .base))
      (AtWork (sessions .base) s .base (n + 1))
      (BaseCase.checkAll a.pending) := .queryAll fun name hname => by
    obtain ⟨p, hp⟩ := hknown name hname
    exact BaseCase.serves_check (ho .base) hp
  have hstepServes : Serves (ReadingFault s.variables (fails .base) (sessions .base))
      (AtWork (sessions .step) s .step (n + 1 + 1))
      (InductionStep.checkAll a.lemmas a.pending) := .queryAll fun name hname => by
    obtain ⟨p, hp⟩ := hknown name hname
    exact InductionStep.serves_check (ho .step) hhypotheses hp
  rw [outcome_checks] at hs
  rcases hbase : outcome (BaseCase.checkAll a.pending) a.engines.base with ⟨bs, base⟩
  rcases hstep : outcome (InductionStep.checkAll a.lemmas a.pending) a.engines.step with ⟨os, step⟩
  obtain ⟨hbase', hbsFails⟩ := hbaseServes h.base hbase
  obtain ⟨hstep', hosFails⟩ := hstepServes h.step hstep
  have hnext : Engaged sessions s c cancelled (n + 1) (n + 2) { a with engines := ⟨base, step⟩ } :=
    ⟨h.system, h.config, h.cancelled, hbase', hstep'⟩
  rw [hbase, hstep] at hs
  obtain ⟨rfl, rfl⟩ := Prod.mk.inj hs
  refine ⟨hnext.deliver, ?_, ?_⟩
  · cases bs with
    | error error => exact hbsFails.of_error
    | ok bs =>
      cases os with
      | error error => exact hosFails.of_error
      | ok os => exact .ok _
  · intro bs' os' hok name hname
    cases bs with
    | error error => cases hok
    | ok bs =>
      cases os with
      | error error => cases hok
      | ok os =>
        obtain ⟨rfl, rfl⟩ := Prod.mk.inj (Except.ok.inj hok)
        obtain ⟨hall, hasked⟩ :=
          queryAll_ok (BaseCase.keeps_check (ho .base).scopes) h.base.standing hbase
        obtain ⟨hall', -⟩ :=
          queryAll_ok (InductionStep.keeps_check (ho .step).scopes a.lemmas) h.step.standing hstep
        obtain ⟨b, hb⟩ := hall name hname
        obtain ⟨e₁, e₂, hstanding, hcheck⟩ := hasked name b hb
        exact ⟨⟨b, hb, BaseCase.clears_of_check hstanding hcheck⟩, hall' name hname⟩

theorem Engaged.conclude (ho : ∀ task, Obliging s.variables (fails task) (sessions task))
    (h : a.Engaged sessions s c cancelled (n + 1) (n + 2)) {q : Except ProofError Bool}
    (hs : outcome conclude a = (q, a')) :
    FailsOnlyBy (ReadingFault s.variables (fails .base) (sessions .base)) q ∧
      (q = .ok false → a'.Engaged sessions s c cancelled (n + 2) (n + 3)) ∧
      (q ≠ .ok false → a'.Engaged sessions s c cancelled (n + 1) (n + 2)) := by
  unfold Attempt.conclude at hs
  rw [outcome_bind_of_ok (outcome_get a), outcome_ite] at hs
  split at hs
  · obtain ⟨rfl, rfl⟩ := Prod.mk.inj hs
    exact ⟨.ok _, by simp, fun _ => h⟩
  rw [outcome_ite] at hs
  split at hs
  · obtain ⟨rfl, rfl⟩ := Prod.mk.inj hs
    exact ⟨.ok _, by simp, fun _ => h.finishAll _⟩
  · obtain ⟨base, hbase, hbase'⟩ := h.base.advance (ho .base)
    obtain ⟨step, hstep, hstep'⟩ := h.step.advance (ho .step)
    rw [outcome_bind_of_ok (outcome_onEngine_ok hbase),
      outcome_bind_of_ok (outcome_onEngine_ok hstep)] at hs
    obtain ⟨rfl, rfl⟩ := Prod.mk.inj hs
    exact ⟨.ok _, fun _ => ⟨h.system, h.config, h.cancelled, hbase', hstep'⟩, by simp⟩

theorem Engaged.round (ho : ∀ task, Obliging s.variables (fails task) (sessions task))
    (h : a.Engaged sessions s c cancelled (n + 1) (n + 2)) (hknown : Known s a.pending)
    {q : Except ProofError Bool} (hs : outcome round a = (q, a')) :
    FailsOnlyBy (ReadingFault s.variables (fails .base) (sessions .base)) q ∧
      (q = .ok false → a'.Engaged sessions s c cancelled (n + 2) (n + 3)) ∧
      (q ≠ .ok false → a'.Engaged sessions s c cancelled (n + 1) (n + 2)) := by
  rcases round_cases hs with ⟨-, rfl, rfl⟩ | ⟨-, ⟨e, hchecks, rfl⟩ | ⟨bs, os, a₁, hchecks, hrest⟩⟩
  · exact ⟨.ok _, by simp, fun _ => h.finishAll _⟩
  · obtain ⟨h', hfails, -⟩ := h.checks ho hknown hchecks
    exact ⟨hfails.of_error, by simp, fun _ => h'⟩
  obtain ⟨h₁, -, -⟩ := h.checks ho hknown hchecks
  rcases hrest with ⟨-, rfl, rfl⟩ | ⟨-, hconclude⟩
  · exact ⟨.ok _, by simp, fun _ => h₁.finishAll _⟩
  · exact (h₁.decideRound bs os).conclude ho hconclude

theorem Known.round (hknown : Known s a.pending) {q : Except ProofError Bool}
    (hs : outcome round a = (q, a')) : Known s a'.pending :=
  fun name hname => hknown name (open_before hs hname)

theorem Engaged.reaches (ho : ∀ task, Obliging s.variables (fails task) (sessions task))
    (h : a.Engaged sessions s c cancelled 1 2) (hknown : Known s a.pending) {b : Attempt σ}
    (hreaches : Reaches a n b) :
    b.Engaged sessions s c cancelled (n + 1) (n + 2) ∧ Known s b.pending := by
  induction hreaches with
  | start => exact ⟨h, hknown⟩
  | @next n b b' _ hround ih =>
    obtain ⟨hb, hbknown⟩ := ih
    exact ⟨(hb.round ho hbknown hround).2.1 rfl, hbknown.round hround⟩

def Passes (b : Attempt σ) (name : String) : Prop :=
  ∃ bs os b' o, outcome Attempt.checks b = (.ok (bs, os), b') ∧ Entries.get? name bs = some o ∧
    o.finding = .nothing

def PassedIn (s₀ : Session σ) (s : TransitionSystem) (a : Attempt σ) (m : Nat) (name : String) : Prop :=
  (∃ b, Reaches a m b ∧ b.Passes name) ∧ BaseCase.Clears s₀ s name m

theorem Reaches.passed_while_open (ho : ∀ task, Obliging s.variables (fails task) (sessions task))
    (h : a.Engaged sessions s c cancelled 1 2) (hknown : Known s a.pending) {b : Attempt σ}
    (hreaches : Reaches a n b) {name : String} (hopen : name ∈ b.pending) :
    ∀ m < n, PassedIn (sessions .base) s a m name := by
  induction hreaches with
  | start => simp
  | @next n b b' hreaches hround ih =>
    have hbefore := open_before hround hopen
    rcases finished_or_open hbefore hround with ⟨r, hfinishes⟩ | ⟨-, bs, os, b₁, hchecks, hnone⟩
    · exact absurd hopen ((hfinishes.round hround).1 rfl)
    intro m hm
    rcases Nat.lt_or_ge m n with hlt | hge
    · exact ih hbefore m hlt
    · obtain rfl : m = n := by omega
      obtain ⟨hb, hbknown⟩ := h.reaches ho hknown hreaches
      obtain ⟨-, -, hoffered⟩ := hb.checks ho hbknown hchecks
      obtain ⟨⟨o, ho, hclears⟩, o', ho'⟩ := hoffered bs os rfl name hbefore
      have hnothing := finding_of_decision_none hnone ho ho'
      exact ⟨⟨b, hreaches, bs, os, b₁, o, hchecks, ho, hnothing⟩, hclears hnothing⟩

def Settled (s₀ : Session σ) (s : TransitionSystem) (fuel : Nat) (a : Attempt σ) (name : String)
    (r : ProofResult) : Prop :=
  (∃ m < fuel, FinishedIn a m name r) ∨
    ∃ (n : Nat) (b : Attempt σ), n < fuel ∧ Reaches a n b ∧ b.Stops ∧ name ∈ b.pending ∧
      r = .unknown name cancelledReason (n - 1) s₀.name ∧ ∀ m < n, PassedIn s₀ s a m name

section

variable {b : Attempt σ} {fuel m : Nat} {name : String} {r : ProofResult} {q : Except ProofError Bool}
  (ho : ∀ task, Obliging s.variables (fails task) (sessions task))
include ho

theorem Engaged.stopped (h : b.Engaged sessions s c cancelled (n + 1) (n + 2))
    (hknown : Known s b.pending) (hstops : b.Stops) {finished : Bool}
    (hs : outcome Attempt.round b = (.ok finished, a')) :
    finished = true ∧ a'.proved = b.proved ∧ ∀ name, Entries.get? name a'.results =
      if name ∈ b.pending then some (.unknown name cancelledReason (n - 1) (sessions .base).name)
      else Entries.get? name b.results := by
  obtain ⟨rfl, engines, rfl⟩ := hstops.round hs
  have h' := (h.round ho hknown hs).2.2 (by simp)
  have hengines : (giveUp cancelledReason (engines.base.depth - 1) { b with engines := engines }).engines =
      engines := engines_finishAll _ _
  have hdepth : engines.base.depth = n := hengines ▸ h'.depth
  have hname : engines.base.session.name = (sessions .base).name := by
    obtain ⟨⟨frames, scope, hkept, -⟩, -⟩ := hengines ▸ h'.base
    exact hkept.opened.reached.name
  refine ⟨rfl, proved_giveUp _ _ _, fun name => ?_⟩
  split
  · next hpending =>
    rw [get?_results_giveUp (a := { b with engines := engines }) hpending, hdepth, hname]
  · next hclosed => exact (closed_giveUp (a := { b with engines := engines }) hclosed).2

theorem Engaged.rounds (h : a.Engaged sessions s c cancelled 1 2) (hknown : Known s a.pending)
    (hs : outcome (rounds fuel) a = (q, a')) :
    FailsOnlyBy (ReadingFault s.variables (fails .base) (sessions .base)) q ∧
      ∃ m, a'.Engaged sessions s c cancelled (m + 1) (m + 2) := by
  rcases rounds_cases hs with ⟨rfl, hreaches⟩ | ⟨m, b, -, hreaches, hlast, hq⟩
  · exact ⟨.ok _, fuel, (h.reaches ho hknown hreaches).1⟩
  · obtain ⟨hb, hbknown⟩ := h.reaches ho hknown hreaches
    obtain ⟨hfails, -, hb'⟩ := hb.round ho hbknown hlast
    exact ⟨hfails, m, hb' hq⟩

theorem stopped_rounds (h : a.Engaged sessions s c cancelled 1 2) (hknown : Known s a.pending)
    (hreaches : Reaches a n b) (hn : n < fuel) (hstops : b.Stops) {finished : Bool}
    (hs : outcome (Attempt.rounds fuel) a = (.ok finished, a')) :
    finished = true ∧ a'.proved = b.proved ∧ ∀ name, Entries.get? name a'.results =
      if name ∈ b.pending then some (.unknown name cancelledReason (n - 1) (sessions .base).name)
      else Entries.get? name b.results := by
  obtain ⟨hb, hbknown⟩ := h.reaches ho hknown hreaches
  have hfuel : fuel - n = fuel - n - 1 + 1 := by omega
  rw [hreaches.rounds (by omega), hfuel] at hs
  change outcome (Attempt.round >>= _) b = _ at hs
  rw [outcome_bind] at hs
  rcases hround : outcome Attempt.round b with ⟨error | last, b'⟩
  · rw [hround] at hs
    cases (Prod.mk.inj hs).1
  obtain ⟨rfl, hresults⟩ := hb.stopped ho hbknown hstops hround
  rw [hround] at hs
  obtain ⟨hfinished, rfl⟩ := Prod.mk.inj hs
  exact ⟨(Except.ok.inj hfinished).symm, hresults⟩

theorem settled_rounds (h : a.Engaged sessions s c cancelled 1 2) (hknown : Known s a.pending)
    (hs : outcome (Attempt.rounds fuel) a = (.ok true, a')) (hname : name ∈ a.pending) :
    ∃ r, Entries.get? name a'.results = some r ∧ Settled (sessions .base) s fuel a name r := by
  obtain ⟨m, b, r, hm, hreaches, hopen, hr, hfinishes | ⟨hstops, -⟩⟩ := finished_or_called_off hname hs
  · exact ⟨r, hr, .inl ⟨m, hm, b, hreaches, hfinishes⟩⟩
  · obtain ⟨-, -, hresults⟩ := stopped_rounds ho h hknown hreaches hm hstops hs
    have hresult := hresults name
    rw [if_pos hopen] at hresult
    have hpassed := hreaches.passed_while_open ho h hknown hopen
    exact ⟨_, hresult, .inr ⟨m, b, hm, hreaches, hstops, hopen, rfl, hpassed⟩⟩

end

def prepare : AttemptM σ Unit := do
  openSession .base
  openSession .step
  onEngine .base BaseCase.start
  onEngine .step InductionStep.start

def begun (a : Attempt σ) (names : List String) : Attempt σ :=
  (outcome prepare { a with pending := names }).2

theorem openSession_served {task : Task} (ho : Obliging s.variables (fails task) (sessions task))
    (hnew : a.engines.get task = ⟨s, task, sessions task, 0⟩) :
    ∃ e, outcome (openSession task) a =
        (.ok (), { a with engines := a.engines.set e task, opened := a.opened ++ [task] }) ∧
      e.AtWork (sessions task) s task 0 := by
  obtain ⟨t, hstart⟩ := ho.starts
  have hkept : Kept s.variables (sessions task) [[]] [[]] t := by
    refine ⟨.started hstart, ?_, ?_⟩
    · obtain ⟨-, rfl⟩ := Prod.mk.inj hstart
      exact ho.isOpen
    · obtain ⟨-, rfl⟩ := Prod.mk.inj hstart
      exact ho.scopes
  have hstarted : outcome Session.start (a.engines.get task).session = (.ok (), t) := by
    rw [hnew]
    exact hstart
  refine ⟨_, outcome_openSession_ok hstarted, ?_⟩
  rw [hnew]
  split
  · exact atWork_of_kept hkept.interrupt
  · exact atWork_of_kept hkept

theorem closeSession_served {task : Task} (ho : Obliging s.variables (fails task) (sessions task))
    (h : (a.engines.get task).AtWork (sessions task) s task n) :
    ∃ e, outcome (closeSession task) a = (.ok (), { a with engines := a.engines.set e task }) := by
  obtain ⟨⟨frames, scope, hkept, -⟩, -⟩ := h
  obtain ⟨t, hclose⟩ := hkept.close ho
  exact ⟨_, outcome_onEngine_ok (outcome_talk_ok hclose)⟩

omit [Backend σ] in
theorem resultsFor_eq {names : List String} {name : String} (hname : name ∈ names) :
    Entries.get? name (a.resultsFor names) = Entries.get? name a.results := by
  cases hr : Entries.get? name a.results with
  | some r => exact get?_resultsFor_of_mem hname hr
  | none =>
    cases hr' : Entries.get? name (a.resultsFor names) with
    | none => rfl
    | some r =>
      rw [get?_resultsFor hr'] at hr
      cases hr

def Cancels (b : Attempt σ) : Prop :=
  b.isCancelled = true ∨ b.isStopped = false ∧ (outcome checks b).2.isCancelled = true

theorem Cancels.round {b b' : Attempt σ} (hl : Backend.Lasting σ) (h : b.Cancels)
    {q : Except ProofError Bool} (hs : outcome Attempt.round b = (q, b')) : b'.isCancelled = true := by
  rcases h with hcancelled | ⟨hgoing, hcancelled⟩
  · exact stays_round hl hcancelled hs trivial
  rcases round_cases hs with ⟨hstopped, -⟩ | ⟨-, ⟨e, hchecks, -⟩ | ⟨bs, os, b₁, hchecks, hrest⟩⟩
  · rw [hgoing] at hstopped
    cases hstopped
  · rwa [hchecks] at hcancelled
  rw [hchecks] at hcancelled
  rcases hrest with ⟨-, -, rfl⟩ | ⟨hgoing₁, -⟩
  · exact stays_finishAll _ hcancelled
  · rw [isStopped, hcancelled] at hgoing₁
    cases hgoing₁

theorem Cancels.rounds {b : Attempt σ} {fuel : Nat} {q : Except ProofError Bool}
    (hl : Backend.Lasting σ) (h : b.Cancels) (hreaches : Reaches a n b) (hn : n < fuel)
    (hs : outcome (Attempt.rounds fuel) a = (q, a')) : a'.isCancelled = true := by
  have hfuel : fuel - n = fuel - n - 1 + 1 := by omega
  rw [hreaches.rounds (by omega), hfuel] at hs
  change outcome (Attempt.round >>= _) b = _ at hs
  rw [outcome_bind] at hs
  rcases hround : outcome Attempt.round b with ⟨error | last, b'⟩
  · have hcancelled := h.round hl hround
    rw [hround] at hs
    obtain ⟨-, rfl⟩ := Prod.mk.inj hs
    exact hcancelled
  have hcancelled := h.round hl hround
  rw [hround] at hs
  cases last with
  | true =>
    obtain ⟨-, rfl⟩ := Prod.mk.inj hs
    exact hcancelled
  | false => exact stays_rounds hl _ hcancelled hs trivial

/-- How an attempt ends that began its rounds as `a₀`. A stopped round leaves nothing behind: what
becomes of a name depends only on what was known before it. -/
structure Concluded (sessions : Task → Session σ) (s : TransitionSystem) (names : List String)
    (fuel : Nat) (a₀ : Attempt σ) (x : Option (Entries String ProofResult)) (a' : Attempt σ) : Prop where
  settled : ∀ results, x = some results → ∀ name ∈ names,
    ∃ r, Entries.get? name results = some r ∧ Settled (sessions .base) s fuel a₀ name r
  kept : ∀ results, x = some results → ∀ name ∈ names, ∀ m r, FinishedIn a₀ m name r →
    Entries.get? name results = some r
  stopped : names ≠ [] → ∀ n b, n < fuel → Reaches a₀ n b → b.Stops →
    a'.proved = b.proved ∧ ∃ results, x = some results ∧ ∀ name ∈ names,
      Entries.get? name results =
        if name ∈ b.pending then some (.unknown name cancelledReason (n - 1) (sessions .base).name)
        else Entries.get? name b.results

section

variable {names : List String} {fuel : Nat} (ho : ∀ task, Obliging s.variables (fails task) (sessions task))
include ho

theorem prepared (a : Attempt σ) (hsystem : a.system = s) (hconfig : a.config = c)
    (hcancelled : a.cancelled = cancelled) (hbase : a.engines.base = ⟨s, .base, sessions .base, 0⟩)
    (hstep : a.engines.step = ⟨s, .step, sessions .step, 0⟩) :
    ∃ a₁ a₂ a₃ a₄, outcome (openSession .base) a = (.ok (), a₁) ∧
      outcome (openSession .step) a₁ = (.ok (), a₂) ∧
      outcome (onEngine .base BaseCase.start) a₂ = (.ok (), a₃) ∧
      outcome (onEngine .step InductionStep.start) a₃ = (.ok (), a₄) ∧
      a₄ = { a with engines := a₄.engines, opened := a₄.opened } ∧
      a₄.Engaged sessions s c cancelled 1 2 := by
  obtain ⟨base₀, hopenBase, hbase₀⟩ := openSession_served (ho .base) hbase
  obtain ⟨step₀, hopenStep, hstep₀⟩ := openSession_served (ho .step)
    (a := { a with engines := a.engines.set base₀ .base, opened := a.opened ++ [.base] }) hstep
  obtain ⟨base₁, hbaseStart, hbase₁⟩ := hbase₀.advance (ho .base)
  obtain ⟨step₁, hstepStart₁, hstep₁⟩ := hstep₀.advance (ho .step)
  obtain ⟨step₂, hstepStart₂, hstep₂⟩ := hstep₁.advance (ho .step)
  refine ⟨_, _, _, _, hopenBase, hopenStep, outcome_onEngine_ok hbaseStart,
    outcome_onEngine_ok (e := step₂) ?_, rfl, hsystem, hconfig, hcancelled, hbase₁, hstep₂⟩
  exact outcome_bind_ok.mpr ⟨(), step₁, hstepStart₁, hstepStart₂⟩

theorem run_served (c : Config) (cancelled : Bool) (fuel : Nat) (hknown : Known s names)
    (hnames : names ≠ []) :
    ∃ a₀ q engines a', (new s c cancelled sessions).begun names = a₀ ∧
      a₀.Engaged sessions s c cancelled 1 2 ∧ a₀.pending = names ∧
      outcome (rounds fuel) a₀ = (q, { a' with engines := engines }) ∧
      (Backend.Lasting σ → isCancelled { a' with engines := engines } = true → a'.isCancelled = true) ∧
      outcome (run names fuel) (new s c cancelled sessions) =
        (q.map fun finished => if finished then some (a'.resultsFor names) else none, a') := by
  obtain ⟨a₁, a₂, a₃, a₄, hopenBase, hopenStep, hbaseStart, hstepStart, ha₄, h₄⟩ :=
    prepared ho { new s c cancelled sessions with pending := names } rfl rfl rfl rfl rfl
  have hbegun : (new s c cancelled sessions).begun names = a₄ := by
    unfold begun prepare
    rw [outcome_bind_of_ok hopenBase, outcome_bind_of_ok hopenStep, outcome_bind_of_ok hbaseStart,
      hstepStart]
  have hpending : a₄.pending = names := by rw [ha₄]
  rcases hrounds : outcome (rounds fuel) a₄ with ⟨q, a₅⟩
  obtain ⟨-, m, h₅⟩ := h₄.rounds ho (by rwa [hpending]) hrounds
  obtain ⟨step, hcloseStep⟩ := closeSession_served (a := a₅) (ho .step) h₅.step
  obtain ⟨base, hcloseBase⟩ := closeSession_served
    (a := { a₅ with engines := a₅.engines.set step .step }) (ho .base) h₅.base
  have hbody : outcome (do
      onEngine .base BaseCase.start
      onEngine .step InductionStep.start
      rounds fuel) a₂ = (q, a₅) := by
    rw [outcome_bind_of_ok hbaseStart, outcome_bind_of_ok hstepStart, hrounds]
  have hsessions := outcome_withSession hopenBase (outcome_withSession hopenStep hbody hcloseStep)
    hcloseBase
  have hstays (hl : Backend.Lasting σ) (hcancelled : a₅.isCancelled = true) :
      isCancelled { a₅ with engines := (a₅.engines.set step .step).set base .base } = true :=
    stays_closeSession hl .base (stays_closeSession hl .step hcancelled hcloseStep trivial) hcloseBase trivial
  refine ⟨a₄, q, a₅.engines, { a₅ with engines := (a₅.engines.set step .step).set base .base }, hbegun,
    h₄, hpending, hrounds, hstays, ?_⟩
  have hnonempty : ¬ names.isEmpty = true := by simpa using hnames
  unfold run
  rw [outcome_bind_of_ok (forM_property_returns (a := new s c cancelled sessions) hknown), outcome_ite,
    if_neg hnonempty, outcome_bind_of_ok (outcome_modify _ _), outcome_bind, hsessions]
  cases q with
  | error error => rfl
  | ok finished =>
    cases finished <;> rfl

theorem concluded_run (cancelled : Bool) (fuel : Nat) (hknown : Known s names) :
    ∃ q a', outcome (run names fuel) (new s c cancelled sessions) = (q, a') ∧
      FailsOnlyBy (ReadingFault s.variables (fails .base) (sessions .base)) q ∧
      (∀ x, q = .ok x →
        Concluded sessions s names fuel ((new s c cancelled sessions).begun names) x a') ∧
      a'.system = s ∧ a'.config = c ∧ a'.cancelled = cancelled ∧
      (Backend.Lasting σ → names ≠ [] → ∀ n b, n < fuel →
        Reaches ((new s c cancelled sessions).begun names) n b → b.Cancels → a'.isCancelled = true) := by
  by_cases hnames : names = []
  · subst hnames
    refine ⟨.ok (some []), new s c cancelled sessions, rfl, .ok _, fun x _ => ?_, rfl, rfl, rfl, by simp⟩
    exact ⟨by simp, by simp, by simp⟩
  obtain ⟨a₀, q, engines, a', hbegun, h₀, hpending, hrounds, hstays, hrun⟩ :=
    run_served ho c cancelled fuel hknown hnames
  have hknown₀ : Known s a₀.pending := by rwa [hpending]
  obtain ⟨hfails, m, h'⟩ := h₀.rounds ho hknown₀ hrounds
  rw [hbegun]
  have hsome : ∀ results, (q.map fun finished => if finished then some (a'.resultsFor names) else none) =
      .ok (some results) → q = .ok true ∧ a'.resultsFor names = results := by
    intro results hresults
    cases q with
    | error error => cases hresults
    | ok finished => cases finished <;> simp_all [Except.map]
  refine ⟨_, a', hrun, ?_, fun x hx => ⟨?_, ?_, ?_⟩, h'.system, h'.config, h'.cancelled, ?_⟩
  · exact hfails.map _
  · rintro results rfl name hname
    obtain ⟨rfl, rfl⟩ := hsome results hx
    obtain ⟨r, hr, hsettled⟩ := settled_rounds ho h₀ hknown₀ hrounds (hpending ▸ hname)
    exact ⟨r, (resultsFor_eq hname).trans hr, hsettled⟩
  · rintro results rfl name hname m r hfinished
    obtain ⟨rfl, rfl⟩ := hsome results hx
    have hr := hfinished.final hrounds
    exact (resultsFor_eq hname).trans hr
  · intro _ n b hn hreaches hstops
    cases q with
    | error error => cases hx
    | ok finished =>
      obtain ⟨rfl, hproved, hresults⟩ := stopped_rounds ho h₀ hknown₀ hreaches hn hstops hrounds
      obtain rfl := Except.ok.inj hx
      refine ⟨hproved, _, rfl, fun name hname => ?_⟩
      rw [resultsFor_eq hname]
      exact hresults name
  · intro hl _ n b hn hreaches hcancels
    exact hstays hl (hcancels.rounds hl hreaches hn hrounds)

end

def again (a : Attempt σ) (sessions : Task → Session σ) : Attempt σ :=
  new a.system a.config a.isCancelled sessions

section

variable {names : List String} {fuel : Nat}

theorem gives_up_of_cancelled (c : Config) (hfuel : 0 < fuel)
    (ho : ∀ task, Obliging s.variables (fails task) (sessions task)) (hknown : Known s names) :
    ∃ results a', outcome (run names fuel) (new s c true sessions) = (.ok (some results), a') ∧
      a'.isCancelled = true ∧ ∀ name ∈ names, Entries.get? name results =
        some (.unknown name cancelledReason (-1) (sessions .base).name) := by
  by_cases hnames : names = []
  · subst hnames
    exact ⟨[], new s c true sessions, rfl, rfl, by simp⟩
  obtain ⟨q, a', hrun, -, hconcluded, -, -, hcancelled, -⟩ := concluded_run (c := c) ho true fuel hknown
  obtain ⟨a₀, q₀, engines, a₁, hbegun, h₀, hpending, hrounds, -, hrun₀⟩ :=
    run_served ho c true fuel hknown hnames
  obtain ⟨rfl, rfl⟩ := Prod.mk.inj (hrun.symm.trans hrun₀)
  have hstopped : a₀.isStopped = true := by simp [isStopped, isCancelled, h₀.cancelled]
  obtain rfl : q₀ = .ok true := (rounds_of_stopped hstopped hfuel hrounds).1
  obtain ⟨-, results, hresults, hall⟩ :=
    (hconcluded _ rfl).stopped hnames 0 a₀ hfuel (hbegun ▸ .start) (.inl hstopped)
  obtain rfl : a'.resultsFor names = results := Option.some.inj hresults
  refine ⟨_, a', hrun, by simp [isCancelled, hcancelled], fun name hname => ?_⟩
  rw [hall name hname, if_pos (hpending ▸ hname)]
  rfl

/-- Cancellation never decides anything. Sessions that do not fail may be interrupted in any of their
operations, and ask to cancel the attempt or run out of time there: the attempt comes to its
conclusion all the same, unless the session of the base case leaves a variable out of a model that it is
asked for. After a cancellation all later attempts are given up at once, and after a mere timeout the
next one is as good as new. -/
theorem cancellation_decides_nothing (s : TransitionSystem) (c : Config) (cancelled : Bool)
    (names : List String) (fuel : Nat) (ho : ∀ task, Obliging s.variables (fun _ => False) (sessions task))
    (hknown : Known s names) :
    ∃ q a', outcome (run names fuel) (new s c cancelled sessions) = (q, a') ∧
      (∀ error, q = .error error →
        ∃ r, error = .missingValue r ∧ LeavesOut s.variables (sessions .base) r) ∧
      (∀ x, q = .ok x →
        Concluded sessions s names fuel ((new s c cancelled sessions).begun names) x a') ∧
      (Backend.Lasting σ → names ≠ [] → ∀ n b, n < fuel →
        Reaches ((new s c cancelled sessions).begun names) n b → b.Cancels → a'.isCancelled = true) ∧
      (a'.isCancelled = true → ∀ others names' fuel',
        (∀ task, Obliging s.variables (fun _ => False) (others task)) → Known s names' →
        0 < fuel' → ∃ results a'',
          outcome (run names' fuel') (a'.again others) = (.ok (some results), a'') ∧
          a''.isCancelled = true ∧ ∀ name ∈ names', Entries.get? name results =
            some (.unknown name cancelledReason (-1) (others .base).name)) ∧
      (cancelled = false → a'.engines.cancels = 0 → ∀ others, a'.again others = new s c false others) := by
  obtain ⟨q, a', hrun, hfails, hconcluded, hsystem, hconfig, hflag, hcancels⟩ :=
    concluded_run (c := c) ho cancelled fuel hknown
  refine ⟨q, a', hrun, fun error herror => (hfails error herror).exists_leftOut, hconcluded, hcancels,
    ?_, ?_⟩
  · intro hcancelled others names' fuel' ho' hknown' hfuel'
    unfold again
    rw [hsystem, hconfig, hcancelled]
    exact gives_up_of_cancelled c hfuel' ho' hknown'
  · rintro rfl hnone others
    rw [again, hsystem, hconfig, isCancelled, hflag, hnone]
    rfl

end

/-- The base case denies that the second flag can be down at first and finds that the third one can;
then it is asked about the second flag again and cancels the attempt while it answers. -/
def impatientSessions : Task → Session Scripted
  | .base => Scripted.session "impatient"
      { answers := [⟨.ok .unsat, [], false, false, false⟩, ⟨.ok .sat, [], false, false, false⟩]
        fallback := some ⟨.ok .unsat, [], true, false, false⟩ }
  | .step => Scripted.session "patient" { fallback := some ⟨.ok .sat, [], false, false, false⟩ }

theorem obliging_impatientSessions (task : Task) :
    Obliging flags.variables (fun _ => False) (impatientSessions task) := by
  cases task with
  | base => exact Scripted.obliging_session flags.variables "impatient" ⟨by simp, _, .unsat, rfl, rfl⟩
  | step => exact Scripted.obliging_session flags.variables "patient" ⟨by simp, _, .sat, rfl, rfl⟩

theorem second_flag_given_up :
    ∃ results a', outcome (run ["second", "third"] 3) (new flags ⟨{}, rfl⟩ false impatientSessions) =
        (.ok (some results), a') ∧
      (Entries.get? "second" results).any (fun r => r.isCancelled && r.depth = 0) = true ∧
      (Entries.get? "third" results).any (fun r => r.isFalsified && r.depth = 0) = true ∧
      ∃ later a'', outcome (run ["second"] 1) (a'.again impatientSessions) = (.ok (some later), a'') ∧
        Entries.get? "second" later = some (.unknown "second" cancelledReason (-1) "impatient") := by
  have hknown : Known flags ["second", "third"] := by
    intro name hname
    rcases List.mem_cons.mp hname with rfl | hname
    · exact ⟨_, rfl⟩
    · obtain rfl := List.mem_singleton.mp hname
      exact ⟨_, rfl⟩
  obtain ⟨q, a', hrun, -, -, -, hlater, -⟩ := cancellation_decides_nothing flags ⟨{}, rfl⟩ false
    ["second", "third"] 3 obliging_impatientSessions hknown
  have hends : (outcome (run ["second", "third"] 3)
        (new flags ⟨{}, rfl⟩ false impatientSessions)).1.toOption.join.any (fun results =>
      (Entries.get? "second" results).any (fun r => r.isCancelled && r.depth = 0) &&
        (Entries.get? "third" results).any fun r => r.isFalsified && r.depth = 0) = true := by
    decide +kernel
  have hcancelled : (outcome (run ["second", "third"] 3)
      (new flags ⟨{}, rfl⟩ false impatientSessions)).2.isCancelled = true := by decide +kernel
  rw [hrun] at hends hcancelled
  match q, hends with
  | .ok (some results), hends =>
    obtain ⟨hsecond, hthird⟩ := (Bool.and_eq_true _ _).mp hends
    obtain ⟨later, a'', hrun', -, hgiven⟩ := hlater hcancelled impatientSessions ["second"] 1
      obliging_impatientSessions (fun name hname => hknown name (by simp_all)) (by decide)
    exact ⟨results, a', hrun, by simpa using hsecond, by simpa using hthird, later, a'', hrun',
      hgiven "second" (by simp)⟩

end Attempt

end InvariantProver
