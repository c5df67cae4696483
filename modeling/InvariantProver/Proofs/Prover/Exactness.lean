import InvariantProver.Proofs.Prover.Progress
import InvariantProver.Proofs.Prover.Soundness
import InvariantProver.Proofs.TransitionSystem.Depths

namespace InvariantProver

open Session

def ProofResult.Exhausted (d : Nat) (r : ProofResult) : Prop :=
  r.verdict = .unknown (some depthExhaustedReason) ∧ r.depth = d

/-- The result that is due to a property, given the length of its shortest violation, the least depth
at which its induction step holds, and the bound on the depth. -/
def ProofResult.Decides (violation induction : Option Nat) (d : Nat) (r : ProofResult) : Prop :=
  match violation, induction with
  | some v, _ => if v ≤ d then (∃ t, r.verdict = .falsified t) ∧ r.depth = v else r.Exhausted d
  | none, some k => if k - 1 ≤ d then r.verdict = .proved ∧ r.depth = k else r.Exhausted d
  | none, none => r.Exhausted d

section

variable {z : ZeroReading} {s : TransitionSystem} {p : Term} {n d : Nat} {r : ProofResult}

theorem decides_falsified (h : s.Open z p n) (hviolates : s.Violates z p n) (hn : n ≤ d)
    (hr : (∃ t, r.verdict = .falsified t) ∧ r.depth = n) :
    r.Decides (s.violationDepth z p) (s.inductionDepth z p) d := by
  unfold ProofResult.Decides
  rw [h.violationDepth_eq hviolates]
  simp only [hn, if_true]
  exact hr

theorem decides_proved (h : s.Open z p n) (hclear : ¬ s.Violates z p n)
    (hstep : ¬ s.Escapes z [p] p (n + 1)) (hn : n ≤ d)
    (hr : r.verdict = .proved ∧ r.depth = (n + 1 : Nat)) :
    r.Decides (s.violationDepth z p) (s.inductionDepth z p) d := by
  unfold ProofResult.Decides
  rw [h.violationDepth_eq_none hclear hstep, h.inductionDepth_eq hstep]
  simp only [Nat.add_sub_cancel, hn, if_true]
  exact hr

theorem decides_exhausted (h : s.Open z p (d + 1)) (hr : r.Exhausted d) :
    r.Decides (s.violationDepth z p) (s.inductionDepth z p) d := by
  unfold ProofResult.Decides
  cases hv : s.violationDepth z p with
  | some v =>
    have hlate : ¬ v ≤ d := by
      have := h.le_violationDepth hv
      omega
    simp only [hlate, if_false]
    exact hr
  | none =>
    cases hk : s.inductionDepth z p with
    | some k =>
      have hlate : ¬ k - 1 ≤ d := by
        have := h.lt_inductionDepth hk
        omega
      simp only [hlate, if_false]
      exact hr
    | none => exact hr

end

namespace Attempt

open Engine

variable {σ : Type} [Backend σ]

structure Deciding (sessions : Task → Session σ) (s : TransitionSystem) (c : Config)
    (names : List String) (n : Nat) (a : Attempt σ) : Prop where
  system : a.system = s
  config : a.config = c
  cancelled : a.cancelled = false
  base : a.engines.base.Ready (sessions .base) s .base ∧ a.engines.base.placed = n + 1
  step : a.engines.step.Ready (sessions .step) s .step ∧ a.engines.step.placed = n + 2
  pending : ∀ name ∈ a.pending, name ∈ names
  proved : ∀ name ∈ a.proved, name ∈ names

def Due (z : ZeroReading) (s : TransitionSystem) (name : String) (p : Term) (d n : Nat)
    (a : Attempt σ) : Prop :=
  name ∈ a.pending ∧ s.Open z p n ∨
    name ∉ a.pending ∧ ∃ r, Entries.get? name a.results = some r ∧
      r.Decides (s.violationDepth z p) (s.inductionDepth z p) d

section

variable {sessions : Task → Session σ} {z : ZeroReading} {s : TransitionSystem} {c : Config}
  {names : List String} {n d : Nat} {a : Attempt σ} {name : String} {p : Term}

theorem link_ready {e : Engine σ} {s₀ : Session σ} {task : Task} (hw : Willing s₀)
    (h : e.Ready s₀ s task) : e.session.link.cancels = 0 ∧ e.session.link.waited = false := by
  obtain ⟨⟨frames, scope, hcalm, -⟩, -⟩ := h
  exact hw.uncancelled hcalm.opened.reached

section

variable (hbase : Willing (sessions .base)) (hstep : Willing (sessions .step))
include hbase hstep

theorem Deciding.isStopped (h : Deciding sessions s c names n a) : a.isStopped = false := by
  obtain ⟨hbaseCancels, hbaseWaited⟩ := link_ready hbase h.base.1
  obtain ⟨hstepCancels, hstepWaited⟩ := link_ready hstep h.step.1
  simp [Attempt.isStopped, isCancelled, Engines.expired, Engines.cancels, Engines.link, Engines.get,
    h.cancelled, hbaseCancels, hbaseWaited, hstepCancels, hstepWaited]

theorem Deciding.deliver (h : Deciding sessions s c names n a) : a.deliver = a := by
  obtain ⟨hbaseCancels, hbaseWaited⟩ := link_ready hbase h.base.1
  obtain ⟨hstepCancels, hstepWaited⟩ := link_ready hstep h.step.1
  simp [Attempt.deliver, Engines.interruptions, Engines.expired, Engines.cancels, Engines.link,
    Engines.get, Task.other, hbaseCancels, hbaseWaited, hstepCancels, hstepWaited]

omit hbase hstep in
theorem Deciding.property_of_lemma (h : Deciding sessions s c names n a) :
    ∀ t ∈ a.lemmas, ∃ name, s.property name = .ok t := by
  intro t ht
  obtain ⟨name, -, hname⟩ := property_of_mem_lemmas ht
  exact ⟨name, h.system ▸ hname⟩

theorem Deciding.checks_settle {B : Term → Outcome Trace → Prop} {S : Term → Outcome Unit → Prop}
    (h : Deciding sessions s c names n a) (hnames : ∀ other ∈ names, ∃ q, s.property other = .ok q)
    (hbaseOne : ∀ name p, s.property name = .ok p → ∀ e : Engine σ,
      e.Ready (sessions .base) s .base → e.placed = n + 1 →
        ∃ o e', outcome (BaseCase.check name) e = (.ok o, e') ∧
          (e'.Ready (sessions .base) s .base ∧ e'.placed = n + 1) ∧ B p o)
    (hstepOne : ∀ name p, s.property name = .ok p → ∀ e : Engine σ,
      e.Ready (sessions .step) s .step → e.placed = n + 1 + 1 →
        ∃ o e', outcome (InductionStep.check a.lemmas name) e = (.ok o, e') ∧
          (e'.Ready (sessions .step) s .step ∧ e'.placed = n + 1 + 1) ∧ S p o) :
    ∃ bs os engines, outcome checks a = (.ok (bs, os), { a with engines := engines }) ∧
      outcome (InductionStep.checkAll a.lemmas a.pending) a.engines.step = (.ok os, engines.step) ∧
      Deciding sessions s c names n { a with engines := engines } ∧
      ∀ name ∈ a.pending, ∀ p, s.property name = .ok p →
        (∃ b, Entries.get? name bs = some b ∧ B p b) ∧ ∃ o, Entries.get? name os = some o ∧ S p o := by
  have hunique {name : String} {p p' : Term} (hp : s.property name = .ok p)
      (hp' : s.property name = .ok p') : p = p' := Except.ok.inj (hp.symm.trans hp')
  obtain ⟨bs, base, hbs, hbase', hbsAll⟩ := queryAll_returns
    (I := fun e : Engine σ => e.Ready (sessions .base) s .base ∧ e.placed = n + 1)
    (P := fun name o => ∀ p, s.property name = .ok p → B p o)
    (fun name hname e he => by
      obtain ⟨p, hp⟩ := hnames name (h.pending name hname)
      obtain ⟨o, e', hs, he', ho⟩ := hbaseOne name p hp e he.1 he.2
      exact ⟨o, e', hs, he', fun p' hp' => hunique hp hp' ▸ ho⟩) h.base
  obtain ⟨os, step, hos, hstep', hosAll⟩ := queryAll_returns
    (I := fun e : Engine σ => e.Ready (sessions .step) s .step ∧ e.placed = n + 1 + 1)
    (P := fun name o => ∀ p, s.property name = .ok p → S p o)
    (fun name hname e he => by
      obtain ⟨p, hp⟩ := hnames name (h.pending name hname)
      obtain ⟨o, e', hs, he', ho⟩ := hstepOne name p hp e he.1 he.2
      exact ⟨o, e', hs, he', fun p' hp' => hunique hp hp' ▸ ho⟩) h.step
  have hnext : Deciding sessions s c names n { a with engines := ⟨base, step⟩ } :=
    ⟨h.system, h.config, h.cancelled, hbase', hstep', h.pending, h.proved⟩
  refine ⟨bs, os, ⟨base, step⟩, ?_, hos, hnext, fun name hname p hp => ?_⟩
  · rw [outcome_checks]
    unfold BaseCase.checkAll InductionStep.checkAll
    rw [hbs, hos, hnext.deliver hbase hstep]
    rfl
  · obtain ⟨b, hb, hbSettled⟩ := hbsAll name hname
    obtain ⟨o, ho, hoSettled⟩ := hosAll name hname
    exact ⟨⟨b, hb, hbSettled p hp⟩, o, ho, hoSettled p hp⟩

theorem Deciding.advance (h : Deciding sessions s c names n a) :
    ∃ engines, outcome (do
        onEngine .base Engine.advance
        onEngine .step Engine.advance
        return false) a = (.ok false, { a with engines := engines }) ∧
      Deciding sessions s c names (n + 1) { a with engines := engines } := by
  obtain ⟨base, hbaseAdvance, hbaseReady, hbasePlaced⟩ := h.base.1.advance hbase
  obtain ⟨step, hstepAdvance, hstepReady, hstepPlaced⟩ := h.step.1.advance hstep
  refine ⟨⟨base, step⟩, ?_, h.system, h.config, h.cancelled, ⟨hbaseReady, by rw [hbasePlaced, h.base.2]⟩,
    ⟨hstepReady, by rw [hstepPlaced, h.step.2]⟩, h.pending, h.proved⟩
  rw [outcome_bind_of_ok (outcome_onEngine_ok hbaseAdvance),
    outcome_bind_of_ok (outcome_onEngine_ok hstepAdvance)]
  rfl

omit hbase hstep in
theorem Deciding.depth (h : Deciding sessions s c names n a) : a.engines.base.depth = n :=
  depth_of_placed h.base.2

theorem Deciding.concludes (h : Deciding sessions s c names n a) :
    (a.pending = [] ∧ outcome Attempt.conclude a = (.ok true, a)) ∨
      (a.pending ≠ [] ∧ c.depthBound.any (· ≤ (n : Int)) = true ∧
        outcome Attempt.conclude a = (.ok true, a.giveUp depthExhaustedReason n)) ∨
      (a.pending ≠ [] ∧ c.depthBound.any (· ≤ (n : Int)) = false ∧ ∃ engines,
        outcome Attempt.conclude a = (.ok false, { a with engines := engines }) ∧
        Deciding sessions s c names (n + 1) { a with engines := engines }) := by
  have hbound : a.config.depthBound = c.depthBound := congrArg (·.depthBound) h.config
  unfold Attempt.conclude
  rw [outcome_bind_of_ok (outcome_get a), outcome_ite, outcome_ite, h.depth, hbound]
  by_cases hempty : a.pending = []
  · rw [if_pos (List.isEmpty_iff.mpr hempty)]
    exact .inl ⟨hempty, rfl⟩
  rw [if_neg (by simpa using hempty)]
  by_cases hlast : c.depthBound.any (· ≤ (n : Int)) = true
  · rw [if_pos hlast]
    exact .inr (.inl ⟨hempty, hlast, rfl⟩)
  · rw [if_neg hlast]
    exact .inr (.inr ⟨hempty, (Bool.not_eq_true _).mp hlast, h.advance hbase hstep⟩)

theorem Deciding.round_of_checks {bs : Entries String (Outcome Trace)}
    {os : Entries String (Outcome Unit)} {a₁ : Attempt σ} (h : Deciding sessions s c names n a)
    (hchecks : outcome Attempt.checks a = (.ok (bs, os), a₁)) (h₁ : Deciding sessions s c names n a₁) :
    outcome Attempt.round a = outcome Attempt.conclude (a₁.decideRound bs os) := by
  rw [round_eq, outcome_bind_of_ok (outcome_get a), outcome_ite,
    if_neg (by simp [h.isStopped hbase hstep]), outcome_bind_of_ok hchecks,
    outcome_bind_of_ok (outcome_get a₁), outcome_ite, if_neg (by simp [h₁.isStopped hbase hstep]),
    outcome_bind_of_ok (outcome_modify _ a₁)]

end

variable (hbase : Decisive z (sessions .base)) (hstep : Decisive z (sessions .step))
include hbase hstep

omit hbase hstep in
theorem Deciding.lemmas_filter (h : Deciding sessions s c names n a) (hp : s.property name = .ok p)
    (halone : c.strengthen = false ∨ ∀ other ∈ names, other = name) :
    a.lemmas.filter (· ≠ p) = [] := by
  rw [List.filter_eq_nil_iff]
  intro t ht
  rcases halone with hoff | halone
  · unfold lemmas at ht
    rw [h.config, hoff] at ht
    cases ht
  · obtain ⟨other, hother, ht⟩ := property_of_mem_lemmas ht
    rw [halone other (h.proved other hother), h.system, hp] at ht
    simpa using (Except.ok.inj ht).symm

theorem Deciding.checks (h : Deciding sessions s c names n a)
    (hnames : ∀ other ∈ names, ∃ q, s.property other = .ok q) :
    ∃ bs os a', outcome checks a = (.ok (bs, os), a') ∧ Deciding sessions s c names n a' ∧
      a' = { a with engines := a'.engines } ∧
      ∀ name ∈ a.pending, ∀ p, s.property name = .ok p →
        (∃ b, Entries.get? name bs = some b ∧ BaseCase.Settles z s p n b) ∧
        ∃ o, Entries.get? name os = some o ∧
          InductionStep.Settles z s (p :: a.lemmas.filter (· ≠ p)) p (n + 1) o := by
  obtain ⟨bs, os, engines, hs, -, h', hall⟩ := h.checks_settle hbase hstep hnames
    (fun name p hp e he hplaced => BaseCase.check_decides hbase he hplaced hp)
    (fun name p hp e he hplaced => InductionStep.check_decides hstep he hplaced hp h.property_of_lemma)
  exact ⟨bs, os, _, hs, h', rfl, hall⟩

omit hbase hstep in
theorem Deciding.finishAll {rs : List ProofResult} (h : Deciding sessions s c names n a)
    (hrs : ∀ r ∈ rs, r.property ∈ names) : Deciding sessions s c names n (a.finishAll rs) := by
  refine ⟨by simpa using h.system, by simpa using h.config, by simpa using h.cancelled,
    by simpa using h.base, by simpa using h.step, fun other hother => ?_, fun other hother => ?_⟩
  · have hpos := List.count_pos_iff.mpr hother
    rw [count_pending_finishAll] at hpos
    exact h.pending other (List.count_pos_iff.mp (by omega))
  · rcases mem_proved_finishAll hother with hold | ⟨r, hr, rfl, -⟩
    · exact h.proved other hold
    · exact hrs r hr

omit hbase hstep in
theorem Deciding.decideRound (h : Deciding sessions s c names n a)
    (bs : Entries String (Outcome Trace)) (os : Entries String (Outcome Unit)) :
    Deciding sessions s c names n (a.decideRound bs os) := by
  have hwarned : Deciding sessions s c names n
      { a with warnings := a.warnings ++ a.replayWarnings bs } :=
    ⟨h.system, h.config, h.cancelled, h.base, h.step, h.pending, h.proved⟩
  apply hwarned.finishAll
  intro r hr
  obtain ⟨other, hmem, hdecision⟩ := mem_decisions_iff.mp hr
  rw [property_of_decision hdecision]
  exact h.pending other hmem

omit hbase hstep in
theorem Deciding.giveUp {reason : String} {depth : Int} (h : Deciding sessions s c names n a) :
    Deciding sessions s c names n (a.giveUp reason depth) := by
  apply h.finishAll
  intro r hr
  obtain ⟨other, hmem, rfl⟩ := List.mem_map.mp hr
  exact h.pending other hmem

omit hbase hstep [Backend σ] in
theorem Due.decideRound {bs : Entries String (Outcome Trace)} {os : Entries String (Outcome Unit)}
    (h : Due z s name p d n a) (hn : n ≤ d) (hlemmas : a.lemmas.filter (· ≠ p) = [])
    (hdecided : name ∈ a.pending →
      (∃ b, Entries.get? name bs = some b ∧ BaseCase.Settles z s p n b) ∧
      ∃ o, Entries.get? name os = some o ∧
        InductionStep.Settles z s (p :: a.lemmas.filter (· ≠ p)) p (n + 1) o) :
    Due z s name p d (n + 1) (a.decideRound bs os) := by
  have hresults := get?_results_decideRound a bs os name
  rcases h with ⟨hpending, hopen⟩ | ⟨hclosed, r, hr, hdue⟩
  · obtain ⟨⟨b, hb, -, hbfinding⟩, o, ho, hodepth, hofinding⟩ := hdecided hpending
    rw [hlemmas] at hofinding
    have hdecision : a.decision bs os name =
        decide? name a.engines.base a.engines.step b o := by
      simp only [decision, hb, ho, Option.bind_eq_bind, Option.bind_some]
    have hfinished {r : ProofResult} (hr : a.decision bs os name = some r)
        (hdue : r.Decides (s.violationDepth z p) (s.inductionDepth z p) d) :
        Due z s name p d (n + 1) (a.decideRound bs os) := by
      refine .inr ⟨fun hmem => ?_, ?_⟩
      · rw [(mem_pending_decideRound.mp hmem).2] at hr
        cases hr
      rcases hresults with ⟨r', -, hr', hsome⟩ | ⟨hnone, -⟩
      · obtain rfl := Option.some.inj (hr.symm.trans hr')
        exact ⟨r, hsome, hdue⟩
      · rw [hnone hpending] at hr
        cases hr
    rcases hbfinding with ⟨t, hfound, htdepth, hviolates⟩ | ⟨hnothing, hclear⟩
    · apply hfinished (r := .falsified name t a.engines.base.session.name)
      · rw [hdecision, decide?, hfound]
      · exact decides_falsified hopen hviolates hn ⟨⟨t, rfl⟩, htdepth⟩
    · rcases hofinding with ⟨hfound, hescapes⟩ | ⟨hheld, hstep⟩
      · refine .inl ⟨mem_pending_decideRound.mpr ⟨hpending, ?_⟩, hopen.succ hclear hescapes⟩
        rw [hdecision, decide?, hnothing, hfound]
      · apply hfinished (r := .proved name o.depth a.engines.step.session.name)
        · rw [hdecision, decide?, hnothing, hheld]
        · exact decides_proved hopen hclear hstep hn ⟨rfl, hodepth⟩
  · refine .inr ⟨fun hmem => hclosed (mem_pending_decideRound.mp hmem).1, r, ?_, hdue⟩
    rcases hresults with ⟨-, hpending, -⟩ | ⟨-, hsame⟩
    · exact absurd hpending hclosed
    · exact hsame.trans hr

omit hbase hstep [Backend σ] in
theorem Due.giveUp (h : Due z s name p d (d + 1) a) :
    ∃ r, Entries.get? name (a.giveUp depthExhaustedReason d).results = some r ∧
      r.Decides (s.violationDepth z p) (s.inductionDepth z p) d := by
  have hresults := get?_results_finishAll (a.pending.map fun name =>
    .unknown name depthExhaustedReason d a.engines.base.session.name) a name
  rcases h with ⟨hpending, hopen⟩ | ⟨hclosed, r, hr, hdue⟩
  · rcases hresults with ⟨hnone, -⟩ | ⟨r, hmem, -, hsome⟩
    · exact absurd rfl (hnone _ (List.mem_map.mpr ⟨name, hpending, rfl⟩))
    · obtain ⟨name', -, rfl⟩ := List.mem_map.mp hmem
      exact ⟨_, hsome, decides_exhausted hopen ⟨rfl, rfl⟩⟩
  · rcases hresults with ⟨-, hsame⟩ | ⟨r', hmem, hname, -⟩
    · exact ⟨r, hsame.trans hr, hdue⟩
    · obtain ⟨name', hpending, rfl⟩ := List.mem_map.mp hmem
      obtain rfl : name' = name := hname
      exact absurd hpending hclosed

theorem Deciding.conclude (h : Deciding sessions s c names n a) (hdue : Due z s name p d (n + 1) a)
    (hn : n ≤ d) (hbound : c.depthBound = some (d : Int)) :
    ∃ finished m a', outcome conclude a = (.ok finished, a') ∧ Deciding sessions s c names m a' ∧
      (finished = true → ∃ r, Entries.get? name a'.results = some r ∧
        r.Decides (s.violationDepth z p) (s.inductionDepth z p) d) ∧
      (finished = false → m = n + 1 ∧ n < d ∧ Due z s name p d (n + 1) a') := by
  rcases h.concludes hbase hstep with ⟨hempty, hs⟩ | ⟨-, hlast, hs⟩ | ⟨-, hgoing, engines, hs, h'⟩
  · refine ⟨true, n, a, hs, h, fun _ => ?_, by simp⟩
    rcases hdue with ⟨hmem, -⟩ | ⟨-, hresult⟩
    · rw [hempty] at hmem
      cases hmem
    · exact hresult
  · rw [hbound] at hlast
    obtain rfl : n = d := by
      have hle : d ≤ n := by simpa using hlast
      omega
    exact ⟨true, n, _, hs, h.giveUp, fun _ => hdue.giveUp, by simp⟩
  · rw [hbound] at hgoing
    have hless : n < d := by simpa using hgoing
    exact ⟨false, n + 1, _, hs, h', by simp, fun _ => ⟨rfl, hless, hdue⟩⟩

theorem Deciding.round (h : Deciding sessions s c names n a) (hdue : Due z s name p d n a)
    (hn : n ≤ d) (hbound : c.depthBound = some (d : Int)) (hp : s.property name = .ok p)
    (hnames : ∀ other ∈ names, ∃ q, s.property other = .ok q)
    (halone : c.strengthen = false ∨ ∀ other ∈ names, other = name) :
    ∃ finished m a', outcome round a = (.ok finished, a') ∧ Deciding sessions s c names m a' ∧
      (finished = true → ∃ r, Entries.get? name a'.results = some r ∧
        r.Decides (s.violationDepth z p) (s.inductionDepth z p) d) ∧
      (finished = false → m = n + 1 ∧ n < d ∧ Due z s name p d (n + 1) a') := by
  obtain ⟨bs, os, a₁, hchecks, h₁, ha₁, hsettled⟩ := h.checks hbase hstep hnames
  have hsame : a₁.pending = a.pending ∧ a₁.results = a.results ∧ a₁.lemmas = a.lemmas := by
    rw [ha₁]
    exact ⟨rfl, rfl, rfl⟩
  obtain ⟨hpending, hresults, hlemmas⟩ := hsame
  have hdue₁ : Due z s name p d n a₁ := by
    unfold Due
    rw [hpending, hresults]
    exact hdue
  have hdue₂ : Due z s name p d (n + 1) (a₁.decideRound bs os) := by
    apply hdue₁.decideRound hn (h₁.lemmas_filter hp halone)
    rw [hpending, hlemmas]
    exact fun hname => hsettled name hname p hp
  obtain ⟨finished, m, a', hs, hconcluded⟩ :=
    (h₁.decideRound bs os).conclude hbase hstep hdue₂ hn hbound
  exact ⟨finished, m, a', (h.round_of_checks hbase hstep hchecks h₁).trans hs, hconcluded⟩

theorem Deciding.rounds {fuel : Nat} (h : Deciding sessions s c names n a)
    (hdue : Due z s name p d n a) (hn : n ≤ d) (hfuel : d < n + fuel)
    (hbound : c.depthBound = some (d : Int)) (hp : s.property name = .ok p)
    (hnames : ∀ other ∈ names, ∃ q, s.property other = .ok q)
    (halone : c.strengthen = false ∨ ∀ other ∈ names, other = name) :
    ∃ m a' r, outcome (rounds fuel) a = (.ok true, a') ∧ Deciding sessions s c names m a' ∧
      Entries.get? name a'.results = some r ∧
        r.Decides (s.violationDepth z p) (s.inductionDepth z p) d := by
  induction fuel generalizing n a with
  | zero => omega
  | succ fuel ih =>
    obtain ⟨finished, m, a₁, hround, h₁, hlast, hnext⟩ :=
      h.round hbase hstep hdue hn hbound hp hnames halone
    unfold Attempt.rounds
    rw [outcome_bind_of_ok hround]
    cases finished with
    | true =>
      obtain ⟨r, hr, hdecides⟩ := hlast rfl
      exact ⟨m, a₁, r, rfl, h₁, hr, hdecides⟩
    | false =>
      obtain ⟨rfl, hless, hdue₁⟩ := hnext rfl
      exact ih h₁ hdue₁ (by omega) (by omega)

end

section

variable {sessions : Task → Session σ} {z : ZeroReading} {s : TransitionSystem} {c : Config}
  {names : List String} {d fuel : Nat} {a a₁ a₂ a' : Attempt σ} {name : String} {p : Term}
  {task : Task}

omit [Backend σ] in
theorem forM_property_returns (h : ∀ name ∈ names, ∃ p, a.engines.base.system.property name = .ok p) :
    outcome (names.forM fun name => do let _ ← onEngine .base (Engine.property name)) a =
      (.ok (), a) := by
  induction names with
  | nil => rfl
  | cons name names ih =>
    obtain ⟨p, hp⟩ := h name (by simp)
    have hone : outcome (onEngine .base (Engine.property name)) a = (.ok p, a) :=
      outcome_onEngine_ok (property_eq_ok.mpr ⟨hp, rfl⟩)
    refine outcome_bind_ok.mpr ⟨(), a, outcome_bind_ok.mpr ⟨p, a, hone, rfl⟩, ?_⟩
    exact ih fun other hother => h other (List.mem_cons_of_mem name hother)

theorem ready_new {s₀ t : Session σ} (hw : Willing s₀) (hs : outcome Session.start s₀ = (.ok (), t))
    (hcalm : t.interrupted = false) : Ready s₀ s task ⟨s, task, t, 0⟩ := by
  have hopened : OpenWith .unbroken s₀ [[]] t := by
    refine ⟨.started hs, ?_⟩
    obtain ⟨-, rfl⟩ := Prod.mk.inj hs
    exact hw.isOpen
  have hscopes : t.scopes = [[]] := by
    obtain ⟨-, rfl⟩ := Prod.mk.inj hs
    exact hw.scopes
  refine ⟨⟨[[]], [], ⟨hopened, hcalm, hscopes⟩, rfl, fun r => ?_⟩, rfl, rfl⟩
  simp only [List.not_mem_nil, false_iff]
  omega

theorem openSession_returns (hw : Willing (sessions task)) (hcancelled : a.cancelled = false)
    (hother : (a.engines.get task.other).session.link.cancels = 0)
    (hnew : a.engines.get task = ⟨s, task, sessions task, 0⟩) :
    ∃ e, outcome (openSession task) a =
        (.ok (), { a with engines := a.engines.set e task, opened := a.opened ++ [task] }) ∧
      e.Ready (sessions task) s task ∧ e.placed = 0 := by
  obtain ⟨t, hstart, hcalm⟩ := hw.starts
  have hready : Ready (sessions task) s task ⟨s, task, t, 0⟩ := ready_new hw hstart hcalm
  have hstarted : outcome Session.start (a.engines.get task).session = (.ok (), t) := by
    rw [hnew]
    exact hstart
  have hcancels : t.link.cancels = 0 := (link_ready hw hready).1
  refine ⟨⟨s, task, t, 0⟩, ?_, hready, rfl⟩
  rw [outcome_openSession_ok hstarted, if_neg, enter, hnew]
  cases task <;>
    simp_all [enter, isCancelled, Engines.cancels, Engines.link, Engines.get, Engines.set, Task.other]

theorem withSession_returns {α : Type} {m : AttemptM σ α} {x : α}
    (hopen : outcome (openSession task) a = (.ok (), a₁)) (hm : outcome m a₁ = (.ok x, a₂))
    (hclose : outcome (closeSession task) a₂ = (.ok (), a')) :
    outcome (withSession task m) a = (.ok x, a') := by
  unfold withSession
  rw [outcome_bind_of_ok hopen]
  exact outcome_ensuring_ok.mpr ⟨a₂, hm, hclose⟩

theorem closeSession_returns (hw : Willing (sessions task))
    (h : (a.engines.get task).Ready (sessions task) s task) :
    ∃ e, outcome (closeSession task) a = (.ok (), { a with engines := a.engines.set e task }) := by
  obtain ⟨⟨frames, scope, hcalm, -⟩, -⟩ := h
  obtain ⟨t, hclose⟩ := hcalm.close hw
  exact ⟨_, outcome_onEngine_ok (outcome_talk_ok hclose)⟩

omit [Backend σ] in
theorem get?_resultsFor_of_mem {r : ProofResult} (hname : name ∈ names)
    (hr : Entries.get? name a.results = some r) :
    Entries.get? name (a.resultsFor names) = some r := by
  have hmem : name ∈ (names.filterMap fun name =>
      (Entries.get? name a.results).map (name, ·)).map Prod.fst := by
    refine List.mem_map.mpr ⟨(name, r), List.mem_filterMap.mpr ⟨name, hname, ?_⟩, rfl⟩
    rw [hr]
    rfl
  obtain ⟨r', hr'⟩ := Entries.exists_get?_ofList hmem
  have hsame := get?_resultsFor (a := a) hr'
  rw [hr] at hsame
  obtain rfl := Option.some.inj hsame
  exact hr'

omit [Backend σ] in
theorem get?_resultsFor_eq (a : Attempt σ) (names : List String) (name : String) :
    Entries.get? name (a.resultsFor names) = if name ∈ names then Entries.get? name a.results else none := by
  split
  · next hname =>
    cases hr : Entries.get? name a.results with
    | some r => exact get?_resultsFor_of_mem hname hr
    | none =>
      refine Option.eq_none_iff_forall_ne_some.mpr fun r hr' => ?_
      rw [get?_resultsFor hr'] at hr
      cases hr
  · next hname =>
    refine Option.eq_none_iff_forall_ne_some.mpr fun r hr => hname ?_
    obtain ⟨name', hname', hmem⟩ := List.mem_filterMap.mp (Entries.mem_of_get?_ofList hr)
    obtain ⟨r', -, heq⟩ := Option.map_eq_some_iff.mp hmem
    exact (Prod.mk.inj heq).1 ▸ hname'

theorem start_returns (hbase : Willing (sessions .base)) (hstep : Willing (sessions .step))
    (hcancelled : a.cancelled = false)
    (hnewBase : a.engines.base = ⟨s, .base, sessions .base, 0⟩)
    (hnewStep : a.engines.step = ⟨s, .step, sessions .step, 0⟩) :
    ∃ a₁ a₂ a₃ a₄, outcome (openSession .base) a = (.ok (), a₁) ∧
      outcome (openSession .step) a₁ = (.ok (), a₂) ∧
      outcome (onEngine .base BaseCase.start) a₂ = (.ok (), a₃) ∧
      outcome (onEngine .step InductionStep.start) a₃ = (.ok (), a₄) ∧
      a₄ = { a with engines := a₄.engines, opened := a₄.opened } ∧
      (a₄.engines.base.Ready (sessions .base) s .base ∧ a₄.engines.base.placed = 1) ∧
      a₄.engines.step.Ready (sessions .step) s .step ∧ a₄.engines.step.placed = 2 := by
  have hstepCancels : a.engines.step.session.link.cancels = 0 := by
    rw [hnewStep]
    exact (hstep.uncancelled .new).1
  obtain ⟨base₀, hopenBase, hbase₀, hbasePlaced₀⟩ :=
    openSession_returns (s := s) hbase hcancelled hstepCancels hnewBase
  obtain ⟨step₀, hopenStep, hstep₀, hstepPlaced₀⟩ := openSession_returns (s := s)
    (a := { a with engines := a.engines.set base₀ .base, opened := a.opened ++ [.base] })
    hstep hcancelled (link_ready hbase hbase₀).1 hnewStep
  obtain ⟨base₁, hbaseStart, hbase₁, hbasePlaced₁⟩ := hbase₀.advance hbase
  obtain ⟨step₁, hstepStart₁, hstep₁, hstepPlaced₁⟩ := hstep₀.advance hstep
  obtain ⟨step₂, hstepStart₂, hstep₂, hstepPlaced₂⟩ := hstep₁.advance hstep
  refine ⟨_, _, _, _, hopenBase, hopenStep, outcome_onEngine_ok hbaseStart,
    outcome_onEngine_ok (e := step₂) ?_, rfl, ⟨hbase₁, ?_⟩, hstep₂, ?_⟩
  · exact outcome_bind_ok.mpr ⟨(), step₁, hstepStart₁, hstepStart₂⟩
  · exact hbasePlaced₁.trans (congrArg (· + 1) hbasePlaced₀)
  · exact hstepPlaced₂.trans (congrArg (· + 1) (hstepPlaced₁.trans (congrArg (· + 1) hstepPlaced₀)))

/-- With decisive sessions and no lemmas, an attempt reports exactly the result that is due. -/
theorem report_decides (hbase : Decisive z (sessions .base)) (hstep : Decisive z (sessions .step))
    (hbound : c.depthBound = some (d : Int)) (hp : s.property name = .ok p) (hname : name ∈ names)
    (hnames : ∀ other ∈ names, ∃ q, s.property other = .ok q)
    (halone : c.strengthen = false ∨ ∀ other ∈ names, other = name) (hfuel : d < fuel) :
    ∃ r, (new s c false sessions).report names fuel name = some r ∧
      r.Decides (s.violationDepth z p) (s.inductionDepth z p) d := by
  obtain ⟨a₁, a₂, a₃, a₄, hopenBase, hopenStep, hstartBase, hstartStep, ha₄, hbaseReady, hstepReady⟩ :=
    start_returns (a := { new s c false sessions with pending := names }) hbase hstep rfl rfl rfl
  have hdeciding : Deciding sessions s c names 0 a₄ := by
    refine ⟨?_, ?_, ?_, hbaseReady, hstepReady, ?_, ?_⟩ <;> rw [ha₄]
    · rfl
    · rfl
    · rfl
    · exact fun _ => id
    · rintro other ⟨⟩
  have hdue : Due z s name p d 0 a₄ := by
    refine .inl ⟨?_, .zero⟩
    rw [ha₄]
    exact hname
  have hrest : d < 0 + fuel := by omega
  obtain ⟨m, a₅, r, hrounds, h₅, hr, hdecides⟩ := hdeciding.rounds hbase hstep hdue (Nat.zero_le d)
    hrest hbound hp hnames halone
  obtain ⟨step, hcloseStep⟩ := closeSession_returns (a := a₅) hstep h₅.step.1
  obtain ⟨base, hcloseBase⟩ := closeSession_returns hbase
    (a := { a₅ with engines := a₅.engines.set step .step }) h₅.base.1
  have hnonempty : ¬ names.isEmpty = true := by
    rw [List.isEmpty_iff]
    exact List.ne_nil_of_mem hname
  have hsessions := withSession_returns hopenBase
    (withSession_returns (m := do
      onEngine .base BaseCase.start
      onEngine .step InductionStep.start
      rounds fuel) hopenStep
      (by rw [outcome_bind_of_ok hstartBase, outcome_bind_of_ok hstartStep, hrounds]) hcloseStep)
    hcloseBase
  have hrun : outcome (run names fuel) (new s c false sessions) =
      (.ok (some (a₅.resultsFor names)),
        { a₅ with engines := (a₅.engines.set step .step).set base .base }) := by
    unfold run
    rw [outcome_bind_of_ok (forM_property_returns hnames), outcome_ite, if_neg hnonempty,
      outcome_bind_of_ok (outcome_modify _ _), outcome_bind_of_ok hsessions]
    rfl
  exact ⟨r, report_eq_some.mpr ⟨_, _, hrun, get?_resultsFor_of_mem hname hr⟩, hdecides⟩

end

noncomputable def idealSessions (_ : Task) : Session Memory :=
  Memory.session "ideal" (Memory.idealOracle zeroReading)

theorem third_flag_decided :
    ∃ r, (new flags ⟨{ depthBound := some 1 }, rfl⟩ false idealSessions).report ["third"] 2 "third" =
        some r ∧
      r.Decides (flags.violationDepth zeroReading (flag "third" 0))
        (flags.inductionDepth zeroReading (flag "third" 0)) 1 := by
  have hdecisive (task : Task) : Decisive zeroReading (idealSessions task) :=
    Memory.decisive_session (Memory.idealOracle_decides zeroReading)
  have hproperty : flags.property "third" = .ok (flag "third" 0) := rfl
  have hname : "third" ∈ ["third"] := List.mem_singleton.mpr rfl
  refine report_decides (hdecisive .base) (hdecisive .step) rfl hproperty hname ?_ ?_ (by decide)
  · intro other hother
    obtain rfl := List.mem_singleton.mp hother
    exact ⟨_, hproperty⟩
  · right
    intro other hother
    exact List.mem_singleton.mp hother

end Attempt

end InvariantProver
