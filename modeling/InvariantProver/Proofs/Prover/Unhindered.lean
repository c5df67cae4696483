import InvariantProver.Proofs.Prover.Forecast

namespace InvariantProver.Attempt

open Session Engine

def foreseen (oracles : Task → Oracle) (solvers : Task → String) (s : TransitionSystem)
    (lemmas : List Term) (name : String) (p : Term) (bound : Option Int) (n : Nat) :
    Option ProofResult :=
  match (BaseCase.forecast (oracles .base) s p n).finding,
    (InductionStep.forecast (oracles .step) s lemmas p (n + 1)).finding with
  | .found t, _ => some (.falsified name t (solvers .base))
  | .unknown reason, _ => some (.unknown name reason (n - 1) (solvers .base))
  | .nothing, .nothing => some (.proved name (n + 1 : Nat) (solvers .step))
  | .nothing, .unknown reason => some (.unknown name reason n (solvers .step))
  | .nothing, .found () =>
    if bound.any (· ≤ (n : Int)) then some (.unknown name depthExhaustedReason n (solvers .base)) else none

variable {σ : Type} [Backend σ] {oracles : Task → Oracle} {sessions : Task → Session σ}
  {s : TransitionSystem} {c : Config} {names : List String} {n fuel : Nat} {a b a' : Attempt σ}
  {name : String} {r : ProofResult}

omit [Backend σ] in
theorem foreseen_eq {base step : Engine σ} (hbase : base.session.name = (sessions .base).name)
    (hstep : step.session.name = (sessions .step).name) (lemmas : List Term) (p : Term)
    (bound : Option Int) :
    foreseen oracles (fun task => (sessions task).name) s lemmas name p bound n =
      (decide? name base step (BaseCase.forecast (oracles .base) s p n)
        (InductionStep.forecast (oracles .step) s lemmas p (n + 1))).or
        (if bound.any (· ≤ (n : Int)) then
          some (.unknown name depthExhaustedReason n (sessions .base).name) else none) := by
  have hbaseDepth : (BaseCase.forecast (oracles .base) s p n).depth = n := rfl
  have hstepDepth :
      (InductionStep.forecast (oracles .step) s lemmas p (n + 1)).depth = (n + 1 : Nat) := rfl
  unfold foreseen decide?
  rw [hbase, hstep, hbaseDepth, hstepDepth]
  cases (BaseCase.forecast (oracles .base) s p n).finding with
  | found t => rfl
  | unknown reason => rfl
  | nothing => cases (InductionStep.forecast (oracles .step) s lemmas p (n + 1)).finding <;> rfl

variable (hs : ∀ task, Speaks (oracles task) (sessions task))
  (hknown : ∀ name ∈ names, ∃ p, s.property name = .ok p)
include hs hknown

theorem Deciding.round_returns (h : Deciding sessions s c names n a) :
    ∃ finished m a', outcome Attempt.round a = (.ok finished, a') ∧ Deciding sessions s c names m a' ∧
      (finished = false → m = n + 1 ∧ a'.pending ≠ [] ∧ c.depthBound.any (· ≤ (n : Int)) = false) := by
  have hw (task : Task) : Willing (sessions task) := (hs task).toWilling
  obtain ⟨bs, os, engines, hchecks, -, h₁, -⟩ := h.checks_forecast hs hknown
  rw [h.round_of_checks (hw .base) (hw .step) hchecks h₁]
  have h₂ := h₁.decideRound bs os
  rcases h₂.concludes (hw .base) (hw .step) with
    ⟨-, hends⟩ | ⟨-, -, hends⟩ | ⟨hopen, hbound, engines', hgoes, h₃⟩
  · exact ⟨true, n, _, hends, h₂, by simp⟩
  · exact ⟨true, n, _, hends, h₂.giveUp, by simp⟩
  · exact ⟨false, n + 1, _, hgoes, h₃, fun _ => ⟨rfl, hopen, hbound⟩⟩

theorem Deciding.rounds_returns (h : Deciding sessions s c names n a) (fuel : Nat) :
    ∃ finished m a', outcome (Attempt.rounds fuel) a = (.ok finished, a') ∧
      Deciding sessions s c names m a' := by
  induction fuel generalizing n a with
  | zero => exact ⟨false, n, a, rfl, h⟩
  | succ fuel ih =>
    obtain ⟨finished, m, a₁, hround, h₁, -⟩ := h.round_returns hs hknown
    unfold Attempt.rounds
    rw [outcome_bind_of_ok hround]
    cases finished with
    | true => exact ⟨true, m, a₁, rfl, h₁⟩
    | false => exact ih h₁

theorem Deciding.finishes_iff {p : Term} (h : Deciding sessions s c names n a)
    (hp : s.property name = .ok p) (hopen : name ∈ a.pending) :
    a.Finishes name r ↔
      foreseen oracles (fun task => (sessions task).name) s a.lemmas name p c.depthBound n = some r := by
  have hw (task : Task) : Willing (sessions task) := (hs task).toWilling
  obtain ⟨bs, os, engines, hchecks, -, h₁, hall⟩ := h.checks_forecast hs hknown
  obtain ⟨hb, ho⟩ := hall name hopen p hp
  have hverdict : verdict? { a with engines := engines } bs os name =
      foreseen oracles (fun task => (sessions task).name) s a.lemmas name p c.depthBound n := by
    have hbound : a.config.depthBound = c.depthBound := congrArg (·.depthBound) h.config
    have hdepth : engines.base.depth = n := h₁.depth
    have hbase : engines.base.session.name = (sessions .base).name := h₁.base.1.name
    rw [foreseen_eq hbase h₁.step.1.name]
    simp only [verdict?, decision, hb, ho, Option.bind_eq_bind, Option.bind_some, exhausted?, hbound,
      hdepth, hbase]
  rw [← hverdict]
  constructor
  · rintro ⟨bs', os', b, -, hchecks', -, -, hr⟩
    obtain ⟨hsame, rfl⟩ := Prod.mk.inj (hchecks.symm.trans hchecks')
    obtain ⟨rfl, rfl⟩ := Prod.mk.inj (Except.ok.inj hsame)
    exact hr
  · intro hr
    exact ⟨bs, os, _, h.isStopped (hw .base) (hw .step), hchecks, h₁.isStopped (hw .base) (hw .step),
      hopen, hr⟩

theorem Deciding.not_stops (h : Deciding sessions s c names n a) : ¬ a.Stops := by
  have hw (task : Task) : Willing (sessions task) := (hs task).toWilling
  obtain ⟨bs, os, engines, hchecks, -, h₁, -⟩ := h.checks_forecast hs hknown
  unfold Stops
  rw [hchecks, h.isStopped (hw .base) (hw .step), h₁.isStopped (hw .base) (hw .step)]
  simp

theorem Reaches.deciding (h : Deciding sessions s c names 0 a) (hreaches : Reaches a n b) :
    Deciding sessions s c names n b := by
  induction hreaches with
  | start => exact h
  | @next n b b' _ hround ih =>
    obtain ⟨finished, m, b₁, hround', h₁, hm⟩ := ih.round_returns hs hknown
    obtain ⟨hfinished, rfl⟩ := Prod.mk.inj (hround.symm.trans hround')
    obtain rfl := Except.ok.inj hfinished
    obtain ⟨rfl, -⟩ := hm rfl
    exact h₁

theorem Reaches.goes_on (h : Deciding sessions s c names 0 a) (hreaches : Reaches a n b) {m : Nat}
    (hm : m < n) : c.depthBound.any (· ≤ (m : Int)) = false := by
  obtain ⟨b₁, b₂, hreaches₁, hround⟩ := hreaches.earlier hm
  obtain ⟨finished, i, b₃, hround', -, hgoes⟩ :=
    (hreaches₁.deciding hs hknown h).round_returns hs hknown
  obtain ⟨hfinished, -⟩ := Prod.mk.inj (hround.symm.trans hround')
  obtain rfl := Except.ok.inj hfinished
  exact (hgoes rfl).2.2

theorem Reaches.pending_ne_nil (h : Deciding sessions s c names 0 a) (hsome : a.pending ≠ [])
    (hreaches : Reaches a n b) : b.pending ≠ [] := by
  cases hreaches with
  | start => exact hsome
  | next hreaches₁ hround =>
    obtain ⟨finished, i, b₁, hround', -, hgoes⟩ :=
      (hreaches₁.deciding hs hknown h).round_returns hs hknown
    obtain ⟨hfinished, rfl⟩ := Prod.mk.inj (hround.symm.trans hround')
    obtain rfl := Except.ok.inj hfinished
    exact (hgoes rfl).2.1

omit hs hknown in
theorem Reaches.holds_while_open {P : Nat → Prop} (hzero : P 0)
    (hstep : ∀ n b, Reaches a n b → name ∈ b.pending → P n → (∀ r, ¬ b.Finishes name r) → P (n + 1))
    (hreaches : Reaches a n b) (hopen : name ∈ b.pending) : P n := by
  induction hreaches with
  | start => exact hzero
  | @next n b b' hreaches hround ih =>
    have hbefore := open_before hround hopen
    exact hstep n b hreaches hbefore (ih hbefore) fun r hr => (hr.round hround).1 rfl hopen

theorem Deciding.finished_in_rounds (h : Deciding sessions s c names 0 a) (hname : name ∈ a.pending)
    (hrounds : outcome (Attempt.rounds fuel) a = (.ok true, a')) :
    ∃ n < fuel, ∃ b r, Reaches a n b ∧ name ∈ b.pending ∧ b.Finishes name r ∧
      Entries.get? name a'.results = some r := by
  obtain ⟨n, b, r, hn, hreaches, hopen, hr, hfinishes | ⟨hstops, -⟩⟩ :=
    finished_or_called_off hname hrounds
  · exact ⟨n, hn, b, r, hreaches, hopen, hfinishes, hr⟩
  · exact absurd hstops ((hreaches.deciding hs hknown h).not_stops hs hknown)

end InvariantProver.Attempt
